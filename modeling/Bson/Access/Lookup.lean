import Bson.Wire.Decode

/-!
# Finding a value by a path

* `Held`                a value on a walk: lent by the value that holds it, or owned by the walk;
* `Held.child?`         the value under one name: a field of a document or a map, a field of a
                        document that was left as bytes, which is decoded for it, or one of the
                        parts that a regular expression, a pointer or code with a scope shows
                        under a fixed name. A field of a value that is lent is lent on; out of a
                        value that is owned, or was made for the walk, it is taken;
* `Value.lookup`        the value at the end of a path;
* `Document.lookup`, `DocumentMap.lookup`  the same from fields, the empty path being all of them.

A value that is not there is no error. The only error is that of bytes that do not decode, located
from the start of the path.
-/

namespace Bson

/-- the parts of a value that are shown under fixed names -/
def Value.part? (name : String) : Value → Option Value
  | .regex r =>
    if name = "Pattern" then some (.string r.pattern)
    else if name = "Options" then some (.string r.options)
    else none
  | .dbPointer p =>
    if name = "Name" then some (.string p.collection)
    else if name = "ObjectId" then some (.objectId p.id)
    else none
  | .codeWithScope code scope =>
    if name = "Code" then some (.javaScript code)
    else if name = "Scope" then some (.document scope)
    else none
  | _ => none

/-- a value on a walk -/
inductive Held where
  | lent (v : Value)
  | owned (v : Value)

namespace Held

def value : Held → Value
  | lent v | owned v => v

/-- the value under a name of a value that is lent -/
def childOfLent? (name : String) : Value → Except Error (Option Held)
  | .document fs | .map fs => .ok ((Fields.get? name fs).map lent)
  | .raw doc => doc.toDocument.map fun fs => (Fields.remove? name fs).map fun taken => owned taken.1
  | v => .ok ((v.part? name).map owned)

def childOfOwned? (name : String) : Value → Except Error (Option Value)
  | .document fs | .map fs => .ok ((Fields.remove? name fs).map Prod.fst)
  | .raw doc => doc.toDocument.map fun fs => (Fields.remove? name fs).map Prod.fst
  | v => .ok (v.part? name)

def child? (name : String) : Held → Except Error (Option Held)
  | lent v => childOfLent? name v
  | owned v => (childOfOwned? name v).map (Option.map owned)

/-- the walk along a path -/
def descend : (path : List String) → Held → Except Error (Option Held)
  | [], h => .ok (some h)
  | name :: rest, h =>
    match h.child? name with
    | .error e => .error e
    | .ok none => .ok none
    | .ok (some next) => inField name (next.descend rest)

end Held

def Value.lookup (path : List String) (v : Value) : Except Error (Option Value) :=
  ((Held.lent v).descend path).map (Option.map Held.value)

/-- the value at the end of a path that starts with a field of the list -/
def lookupField (name : String) (rest : List String) (fs : Fields Value) :
    Except Error (Option Value) :=
  match Fields.get? name fs with
  | none => .ok none
  | some v => inField name (v.lookup rest)

def Document.lookup (path : List String) (d : Document) : Except Error (Option Value) :=
  match path with
  | [] => .ok (some (.document d))
  | name :: rest => lookupField name rest d

def DocumentMap.lookup (path : List String) (m : DocumentMap) : Except Error (Option Value) :=
  match path with
  | [] => .ok (some (.map m))
  | name :: rest => lookupField name rest m

end Bson
