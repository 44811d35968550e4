import Bson.Double.Nearest
import Bson.Fields

/-!
# JSON values

* `Json.Number`     a number is kept as it was written: a natural or a negative integer of 64
                    bits, or a double;
* `Json`            a JSON value; the members of an object keep their order;
* `Json.Number.ofInt64`, `Json.Number.toInt64?`, `Json.Number.toDouble`  integers and doubles of a
                    number;
* `Json.member?`    the member of an object;
* `Json.sorted`     the value with the members of every object in the order of their names, the last
                    one of each name.
-/

namespace Bson

inductive Json.Number where
  | natural (n : UInt64)
  | negative (n : Int64)
  | float (d : Double)
  deriving DecidableEq, Repr

inductive Json where
  | null
  | bool (flag : Bool)
  | number (n : Json.Number)
  | string (text : String)
  | array (items : List Json)
  | object (members : List (String × Json))

namespace Json

namespace Number

def ofInt64 (n : Int64) : Number := if n < 0 then negative n else natural n.toUInt64

def ofNat (n : Nat) : Number := natural (UInt64.ofNat n)

/-- the integer that a number is, if it was written as one and fits 64 bits with a sign -/
def toInt64? : Number → Option Int64
  | natural n => if n.toNat < 0x8000000000000000 then some n.toInt64 else none
  | negative n => some n
  | float _ => none

def toDouble : Number → Double
  | natural n => Double.ofInt n.toNat
  | negative n => Double.ofInt n.toInt
  | float d => d

end Number

def asString? : Json → Option String
  | string s => some s
  | _ => none

def asInt64? : Json → Option Int64
  | number n => n.toInt64?
  | _ => none

def member? (name : String) : Json → Option Json
  | object members => Fields.get? name members
  | _ => none

mutual

/-- the same value with the members of every object in the order of their names -/
def sorted : Json → Json
  | array items => array (sortedItems items)
  | object members => object (Fields.sorted (sortedMembers members))
  | j => j

def sortedItems : List Json → List Json
  | [] => []
  | j :: rest => j.sorted :: sortedItems rest

def sortedMembers : List (String × Json) → List (String × Json)
  | [] => []
  | (name, j) :: rest => (name, j.sorted) :: sortedMembers rest

end

end Json

end Bson
