import Bson.Double
import Bson.Error

/-!
# Reading from the front of a byte string

A `Reader` works on the bytes that are not read yet. It gives a value or an error, and in either
case the bytes that are left, so that reading can go on after a failure too: the position in a
byte string is what is gone from it.

* `Reader.bytes`, `Reader.u8`, `Reader.int32`, `Reader.int64`, `Reader.double`  fixed widths; a
                        short input is left as it is;
* `Reader.cstring`      a text up to a zero byte; on failure nothing is read;
* `Reader.string`       a text behind its length, which counts the zero byte after it; a length of
                        zero stands for the empty text without a zero byte;
* `Reader.documentBytes` the bytes of a document, its length in front included; the length is read
                        again if the body is short, and stays read if it is too small;
* `Reader.within`       a reader whose errors are seen from one level up.
-/

namespace Bson

/-- a step of reading: the unread bytes before it, and what it leaves of them -/
abbrev Reader := EStateM Error Bytes

namespace Reader

variable {α β : Type}

/-- fails at the root of what is read, and reads nothing -/
def fail (f : Fault) : Reader α := fun rest => .error f.error rest

def bytes (n : Nat) : Reader Bytes := fun rest =>
  if n ≤ rest.length then .ok (rest.take n) (rest.drop n) else .error Fault.unexpectedEof.error rest

def u8 : Reader UInt8 := fun
  | b :: rest => .ok b rest
  | [] => .error Fault.unexpectedEof.error []

def int32 : Reader Int32 := Bytes.toInt32 <$> bytes 4

def int64 : Reader Int64 := Bytes.toInt64 <$> bytes 8

def double : Reader Double := (fun bs => ⟨Bytes.toUInt64 bs⟩) <$> bytes 8

def text (bs : Bytes) : Reader String := fun rest =>
  match ofUtf8? bs with
  | some s => .ok s rest
  | none => .error Fault.invalidUtf8.error rest

/-- the text up to the next zero byte, which is read too -/
def cstring : Reader String := fun rest =>
  match rest.dropWhile (· != 0) with
  | [] => .error Fault.missingNul.error rest
  | _ :: after =>
    match ofUtf8? (rest.takeWhile (· != 0)) with
    | some s => .ok s after
    | none => .error Fault.invalidUtf8.error rest

def string : Reader String := do
  let n ← int32
  if n < 0 then fail (.invalidLength n.toInt)
  else if n = 0 then return ""
  else
    let bs ← bytes n.toInt.toNat
    if bs.getLast? = some 0 then text bs.dropLast else fail .missingNul

/-- the fewest bytes a document has: its length and its terminator -/
def smallestDocument : Nat := 5

def documentBytes : Reader Bytes := fun rest =>
  match int32 rest with
  | .error e rest' => .error e rest'
  | .ok n rest' =>
    if n.toInt < smallestDocument then .error (Fault.invalidLength n.toInt).error rest'
    else bytes n.toInt.toNat rest

/-- a reader whose errors are seen from one level up -/
def within (name : String) (r : Reader α) : Reader α := fun rest =>
  match r rest with
  | .ok a rest' => .ok a rest'
  | .error e rest' => .error (e.within name) rest'

/-- a result that was found without reading -/
def lift (result : Except Error α) : Reader α := fun rest =>
  match result with
  | .ok a => .ok a rest
  | .error e => .error e rest

def result (r : Reader α) (input : Bytes) : Except Error α :=
  match r input with
  | .ok a _ => .ok a
  | .error e _ => .error e

def remainder (r : Reader α) (input : Bytes) : Bytes :=
  match r input with
  | .ok _ rest => rest
  | .error _ rest => rest

/-! ### equations -/

@[simp] theorem pure_apply (a : α) (rest : Bytes) : (pure a : Reader α) rest = .ok a rest := rfl

@[simp] theorem fail_apply (f : Fault) (rest : Bytes) :
    (fail f : Reader α) rest = .error f.error rest := rfl

theorem bytes_of_le {n : Nat} {rest : Bytes} (h : n ≤ rest.length) :
    bytes n rest = .ok (rest.take n) (rest.drop n) := if_pos h

theorem bytes_of_lt {n : Nat} {rest : Bytes} (h : rest.length < n) :
    bytes n rest = .error Fault.unexpectedEof.error rest := if_neg (by omega)

@[simp] theorem bytes_append (front rest : Bytes) :
    bytes front.length (front ++ rest) = .ok front rest := by simp [bytes]

end Reader

end Bson
