import Bson.Access.Lookup

/-!
# Putting a value into a typed target

* `Target`          the types that a value can be put into, and options of them;
* `Target.Content`  what a target of the type holds, and `Target.initial` what it holds at first;
* `Target.convert?` the content that a value gives, if there is a rule for it;
* `Target.assign`   the attempt to put a value into a target: the result, and what the target
                    holds afterwards. Values that carry nothing leave it as it is and count as
                    put. An option that holds nothing is given the initial content first, whatever
                    comes of it;
* `Target.put`      the same for a value that was looked up, and may not be there.

Each rule takes exactly the values listed; no integer is narrowed. An error names the whole path.
-/

namespace Bson

inductive Target where
  | double
  | string
  | bytes
  | bool
  | int32
  | int64
  | document
  | map
  | array
  | regex
  | codeWithScope
  | objectId
  | dbPointer
  | dateTime
  | value
  | option (inner : Target)
  deriving DecidableEq, Repr

namespace Target

/-- what a target holds -/
def Content : Target → Type
  | double => Double
  | string => String
  | bytes => Bytes
  | bool => Bool
  | int32 => Int32
  | int64 => Int64
  | document => Document
  | map => DocumentMap
  | array => List Value
  | regex => Regex
  | codeWithScope => String × Document
  | objectId => ObjectId
  | dbPointer => DbPointer
  | dateTime => Instant
  | value => Value
  | option inner => Option inner.Content

/-- the name of a type in errors; an option has that of its inner type -/
def name : Target → String
  | double => "f64"
  | string => "String"
  | bytes => "Vec<u8>"
  | bool => "bool"
  | int32 => "i32"
  | int64 => "i64"
  | document => "Document"
  | map => "Map"
  | array => "Array"
  | regex => "Regex"
  | codeWithScope => "JavaScriptWithScope"
  | objectId => "ObjectId"
  | dbPointer => "DbPointer"
  | dateTime => "DateTime<Utc>"
  | value => "BsonValue"
  | option inner => inner.name

def initial : (t : Target) → t.Content
  | double => Double.zero
  | string => ""
  | bytes => ([] : Bytes)
  | bool => false
  | int32 => (0 : Int32)
  | int64 => (0 : Int64)
  | document => ([] : Document)
  | map => ([] : DocumentMap)
  | array => ([] : List Value)
  | regex => (⟨"", ""⟩ : Regex)
  | codeWithScope => ("", [])
  | objectId => ObjectId.zero
  | dbPointer => (⟨"", ObjectId.zero⟩ : DbPointer)
  | dateTime => Instant.epoch
  | value => Value.map []
  | option _ => none

/-- the content that a value gives -/
def convert? : (t : Target) → Value → Option t.Content
  | double, .double d => some d
  | string, .string s | string, .javaScript s | string, .symbol s => some s
  | bytes, .binary bs => some bs
  | bytes, .objectId id => some id.bytes
  | bool, .boolean b => some b
  | int32, .int32 n => some n
  | int64, .int32 n => some n.toInt64
  | int64, .int64 n | int64, .dateTime n | int64, .timestamp n => some n
  | document, .document fs => some fs
  | map, .map fs => some fs
  | array, .array items => some items
  | regex, .regex r => some r
  | codeWithScope, .codeWithScope code scope => some (code, scope)
  | objectId, .objectId id => some id
  | dbPointer, .dbPointer p => some p
  | dateTime, v => v.asInstant?
  | value, v => some v
  | _, _ => none

/-- the attempt to put a value into a target -/
def assign (path : FieldPath) (v : Value) : (t : Target) → t.Content →
    Except Error Unit × t.Content
  | option inner, content =>
    let (result, held) := assign path v inner (content.getD inner.initial)
    (result, some held)
  | t, content =>
    if v.isUnit then (.ok (), content)
    else
      match t.convert? v with
      | some c => (.ok (), c)
      | none => (.error (.located path (.cannotCoerce v.typeName t.name)), content)

/-- the attempt to put what a look-up along `path` found into a target; tells whether there was
anything -/
def put (path : List String) (found : Except Error (Option Value)) (t : Target)
    (content : t.Content) : Except Error Bool × t.Content :=
  match found with
  | .error e => (.error e, content)
  | .ok none => (.ok false, content)
  | .ok (some v) =>
    let (result, held) := assign (.ofNames path) v t content
    (result.map fun _ => true, held)

end Target

def Value.reach (t : Target) (path : List String) (v : Value) (content : t.Content) :
    Except Error Bool × t.Content :=
  t.put path (v.lookup path) content

def Document.reach (t : Target) (path : List String) (d : Document) (content : t.Content) :
    Except Error Bool × t.Content :=
  t.put path (d.lookup path) content

def DocumentMap.reach (t : Target) (path : List String) (m : DocumentMap) (content : t.Content) :
    Except Error Bool × t.Content :=
  t.put path (m.lookup path) content

end Bson
