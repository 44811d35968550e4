import Bson.Value

/-!
# Comparing values

`Value.equal` compares two values of the same constructor by what they hold: doubles as numbers,
so that a NaN equals nothing and the two zeros are equal; documents with the order of their
fields; maps by their names. Values of different constructors differ, so a document never equals a
map.
-/

namespace Bson

mutual

def Value.equal : Value → Value → Bool
  | .double a, .double b => a.equal b
  | .string a, .string b => a == b
  | .document a, .document b => equalFields a b
  | .map a, .map b => equalFields a b
  | .array a, .array b => equalItems a b
  | .binary a, .binary b => a == b
  | .undefined, .undefined => true
  | .objectId a, .objectId b => a == b
  | .boolean a, .boolean b => a == b
  | .dateTime a, .dateTime b => a == b
  | .null, .null => true
  | .regex a, .regex b => a == b
  | .dbPointer a, .dbPointer b => a == b
  | .javaScript a, .javaScript b => a == b
  | .symbol a, .symbol b => a == b
  | .codeWithScope a s, .codeWithScope b t => a == b && equalFields s t
  | .int32 a, .int32 b => a == b
  | .timestamp a, .timestamp b => a == b
  | .int64 a, .int64 b => a == b
  | .minKey, .minKey => true
  | .maxKey, .maxKey => true
  | .raw a, .raw b => a == b
  | _, _ => false

def equalFields : List (String × Value) → List (String × Value) → Bool
  | [], [] => true
  | (k, v) :: fs, (l, w) :: gs => k == l && v.equal w && equalFields fs gs
  | _, _ => false

def equalItems : List Value → List Value → Bool
  | [], [] => true
  | v :: vs, w :: ws => v.equal w && equalItems vs ws
  | _, _ => false

end

end Bson
