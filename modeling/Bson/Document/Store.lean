import Bson.Value

/-!
# Documents and maps as stores

The operations that both lists of fields offer, as data (`StoreOp`), with what they answer
(`StoreAnswer`):

* `Document.perform`       on fields in order: a new name is added at the end, a name that is
                           there keeps its place, and of a repeated name only the first field is
                           seen;
* `DocumentMap.perform`    on fields without an order.
-/

namespace Bson

inductive StoreOp where
  | insert (name : String) (v : Value)
  | set (name : String) (v : Value)
  | remove (name : String)
  | get (name : String)
  | contains (name : String)
  | size

/-- what an operation answers: the value that is or was there, a truth value, or a number -/
inductive StoreAnswer where
  | value (v : Option Value)
  | flag (b : Bool)
  | count (n : Nat)

/-- an operation on a document; inserting and removing answer the value that was there -/
def Document.perform : StoreOp → Document → StoreAnswer × Document
  | .insert name v, d => (.value (Fields.get? name d), Fields.insert name v d)
  | .set name v, d => (.flag (Fields.contains name d), Fields.set name v d)
  | .remove name, d => (.value (Fields.get? name d), Fields.erase name d)
  | .get name, d => (.value (Fields.get? name d), d)
  | .contains name, d => (.flag (Fields.contains name d), d)
  | .size, d => (.count d.length, d)

def DocumentMap.perform : StoreOp → DocumentMap → StoreAnswer × DocumentMap
  | .insert name v, m => (.value (Fields.get? name m), Fields.place name v m)
  | .set name v, m => (.flag (Fields.contains name m), Fields.set name v m)
  | .remove name, m => (.value (Fields.get? name m), Fields.erase name m)
  | .get name, m => (.value (Fields.get? name m), m)
  | .contains name, m => (.flag (Fields.contains name m), m)
  | .size, m => (.count m.length, m)

end Bson
