import Bson.Time
import Bson.Value

/-!
# Single host values as values

The table by which a value of a host type becomes a value of the wire format:

* `Native`              a value of one of the host types;
* `Value.ofNative`      its value: integers of up to 32 bits that fit one become the narrow
                        integer, wider ones the wide integer; texts, bytes, times, identifiers and
                        documents become themselves; an absent option is null; a list is an array;
* `UtcTime.millis`, `WallTime.millis`  the two kinds of time, in whole milliseconds.
-/

namespace Bson

/-- an instant by its seconds, rounded down, and the nanoseconds after them -/
structure UtcTime where
  seconds : Int
  nanos : Nat
  deriving DecidableEq, Repr

def UtcTime.millis (t : UtcTime) : Int := t.seconds * 1000 + (t.nanos / 1000000 : Nat)

/-- an instant by its distance from the epoch, before or after it -/
structure WallTime where
  beforeEpoch : Bool
  seconds : Nat
  nanos : Nat
  deriving DecidableEq, Repr

/-- the milliseconds of an instant, those of its distance rounded down, in 64 bits -/
def WallTime.millis (t : WallTime) : Int64 :=
  let distance := Int64.ofNat (t.seconds * 1000 + t.nanos / 1000000)
  if t.beforeEpoch then -distance else distance

inductive Native where
  | unit
  | bool (flag : Bool)
  | int8 (n : Int8)
  | int16 (n : Int16)
  | int32 (n : Int32)
  | uint8 (n : UInt8)
  | uint16 (n : UInt16)
  | uint32 (n : UInt32)
  | int64 (n : Int64)
  | double (d : Double)
  | string (text : String)
  | bytes (bs : Bytes)
  | utcTime (t : UtcTime)
  | wallTime (t : WallTime)
  | objectId (id : ObjectId)
  | document (d : Document)
  | map (m : DocumentMap)
  | value (v : Value)
  | raw (doc : RawDocument)
  | regex (r : Regex)
  | dbPointer (p : DbPointer)
  | codeWithScope (code : String) (scope : Document)
  | option (inner : Option Native)
  | list (items : List Native)

mutual

def Value.ofNative : Native → Value
  | .unit => .null
  | .bool b => .boolean b
  | .int8 n => .int32 n.toInt32
  | .int16 n => .int32 n.toInt32
  | .int32 n => .int32 n
  | .uint8 n => .int32 (Int32.ofNat n.toNat)
  | .uint16 n => .int32 (Int32.ofNat n.toNat)
  | .uint32 n => .int64 (Int64.ofNat n.toNat)
  | .int64 n => .int64 n
  | .double d => .double d
  | .string s => .string s
  | .bytes bs => .binary bs
  | .utcTime t => .dateTime (Int64.ofInt t.millis)
  | .wallTime t => .dateTime t.millis
  | .objectId id => .objectId id
  | .document d => .document d
  | .map m => .map m
  | .value v => v
  | .raw doc => .raw doc
  | .regex r => .regex r
  | .dbPointer p => .dbPointer p
  | .codeWithScope code scope => .codeWithScope code scope
  | .option inner => ofOption inner
  | .list items => .array (ofNatives items)

def ofOption : Option Native → Value
  | none => .null
  | some inner => Value.ofNative inner

def ofNatives : List Native → List Value
  | [] => []
  | n :: rest => Value.ofNative n :: ofNatives rest

end

end Bson
