import Bson.Bytes
import Bson.Text.Hex
import Bson.Text.Quoted
import Bson.Error

/-!
# Object identifiers

* `ObjectId`              twelve bytes;
* `ObjectId.ofBytes?`     the identifier of a byte string of the right length;
* `ObjectId.ofBytes`, `ObjectId.ofHex`  the same with a reason why not (`ObjectId.Invalid`), from
                          bytes and from hexadecimal text;
* `ObjectId.located`      the identifier of bytes found in a document, with a located error;
* `ObjectId.hex`          its 24 lower-case digits;
* `ObjectId.timestamp`    the seconds in its first four bytes, most significant first;
* `ObjectId.order`        comparison byte by byte.
-/

namespace Bson

structure ObjectId where
  bytes : Bytes
  length_bytes : bytes.length = 12 := by decide
  deriving DecidableEq

namespace ObjectId

inductive Invalid where
  | wrongLength (length : Nat)
  | badHex (cause : Hex.Error)
  deriving DecidableEq, Repr

def Invalid.message : Invalid → String
  | .wrongLength length =>
    "Invalid ObjectId: ObjectId must be 12 bytes, got " ++ Decimal.ofNat length
  | .badHex .oddLength => "Invalid ObjectId: Invalid hex: Odd number of digits"
  | .badHex (.badDigit byte position) =>
    "Invalid ObjectId: Invalid hex: Invalid character " ++ Quoted.latin byte ++ " at position "
      ++ Decimal.ofNat position

def zero : ObjectId := ⟨List.replicate 12 0, by decide⟩

def ofBytes? (bs : Bytes) : Option ObjectId :=
  if h : bs.length = 12 then some ⟨bs, h⟩ else none

def ofBytes (bs : Bytes) : Except Invalid ObjectId :=
  match ofBytes? bs with
  | some id => .ok id
  | none => .error (.wrongLength bs.length)

def ofHex (text : String) : Except Invalid ObjectId :=
  match Hex.decode text with
  | .ok bs => ofBytes bs
  | .error e => .error (.badHex e)

def located (bs : Bytes) : Except Error ObjectId :=
  match ofBytes? bs with
  | some id => .ok id
  | none => .error (Fault.invalidObjectIdLength bs.length).error

/-- the identifier of a text found in a document; a text that is none is counted two digits to a
byte -/
def locatedHex (text : String) : Except Error ObjectId :=
  match ofHex text with
  | .ok id => .ok id
  | .error _ => .error (Fault.invalidObjectIdLength ((utf8 text).length / 2)).error

def hex (id : ObjectId) : String := Hex.encode id.bytes

/-- the natural of a byte string, most significant byte first -/
def bigEndian (bs : Bytes) : Nat := bs.foldl (fun n b => 256 * n + b.toNat) 0

def timestamp (id : ObjectId) : Nat := bigEndian (id.bytes.take 4)

/-- whether the first identifier comes before the second, byte by byte -/
instance : LT ObjectId := ⟨fun a b => a.bytes < b.bytes⟩

instance (a b : ObjectId) : Decidable (a < b) := inferInstanceAs (Decidable (a.bytes < b.bytes))

def order (a b : ObjectId) : Ordering := if a < b then .lt else if a = b then .eq else .gt

@[simp] theorem ofBytes?_bytes (id : ObjectId) : ofBytes? id.bytes = some id := by
  simp [ofBytes?, id.length_bytes]

theorem ofBytes?_eq_none_iff {bs : Bytes} : ofBytes? bs = none ↔ bs.length ≠ 12 := by
  simp [ofBytes?]

end ObjectId

end Bson
