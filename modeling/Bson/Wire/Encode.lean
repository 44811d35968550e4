import Bson.Value
import Bson.Wire.Writer

/-!
# Writing documents

* `writePayload`, `writeFields`, `writeItems`   the payload of a value, the elements of a list of
                        fields, and those of an array, whose names are the indices in decimal;
* `Document.encode`     the bytes of the fields of a document or a map, in the order of the list;
* `Value.encode`        the bytes of a value that can stand alone: a document, a map, or bytes that
                        were not read, which are written as they are.

An element is its tag, its name and its payload. An error is located by the names of the fields, the
indices of the items, and `Scope` for the scope of code.
-/

namespace Bson

mutual

def writePayload : Value → Writer Unit
  | .double d => Writer.double d
  | .string s | .javaScript s | .symbol s => Writer.string s
  | .document fs | .map fs => Writer.enclosed (writeFields fs)
  | .raw doc => Writer.put doc.bytes
  | .array items => Writer.enclosed (writeItems 0 items)
  | .binary bs => do
    let n ← Writer.length? bs.length
    Writer.int32 n
    Writer.put (0 :: bs)
  | .objectId id => Writer.put id.bytes
  | .boolean b => Writer.put [if b then 1 else 0]
  | .dateTime n | .timestamp n | .int64 n => Writer.int64 n
  | .regex r => do
    Writer.cstring r.pattern
    Writer.cstring r.options
  | .dbPointer p => do
    Writer.string p.collection
    Writer.put p.id.bytes
  | .codeWithScope code scope => do
    let start ← Writer.reserve
    Writer.string code
    Writer.within "Scope" (Writer.enclosed (writeFields scope))
    Writer.patch start
  | .int32 n => Writer.int32 n
  | .undefined | .null | .minKey | .maxKey => pure ()

def writeFields : List (String × Value) → Writer Unit
  | [] => pure ()
  | (name, v) :: rest => do
    Writer.within name do
      Writer.put [v.elementType.tag]
      Writer.cstring name
      writePayload v
    writeFields rest

/-- the elements of an array, of which the first has the index `i` -/
def writeItems (i : Nat) : List Value → Writer Unit
  | [] => pure ()
  | v :: rest => do
    Writer.within (Decimal.ofNat i) do
      Writer.put [v.elementType.tag]
      Writer.cstring (Decimal.ofNat i)
      writePayload v
    writeItems (i + 1) rest

end

/-- a map is written as the document of its fields -/
theorem writePayload_map (fs : Fields Value) :
    writePayload (.map fs) = writePayload (.document fs) := by
  rw [writePayload, writePayload]

def writeDocument (fs : Fields Value) : Writer Unit := Writer.enclosed (writeFields fs)

def Document.encode (d : Document) : Except Error RawDocument :=
  (writeDocument d).written.map RawDocument.mk

def DocumentMap.encode (m : DocumentMap) : Except Error RawDocument :=
  (writeDocument m).written.map RawDocument.mk

/-- the bytes of a value that can stand alone -/
def Value.encode : Value → Except Error RawDocument
  | .document fs | .map fs => Document.encode fs
  | .raw doc => .ok doc
  | v => .error (Fault.unsupportedType v.typeName).error

example : Document.encode [] = .ok ⟨[5, 0, 0, 0, 0]⟩ := rfl

end Bson
