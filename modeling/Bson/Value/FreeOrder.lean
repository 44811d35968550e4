import Bson.Value

/-!
# Values whose order of fields is free

A map with two or more fields may be walked in any order, and so may be written in several ways.
`Value.hasFreeOrder` tells whether such a map occurs in a value, through documents, maps, arrays and
scopes; bytes that were not read are not looked into.
-/

namespace Bson

mutual

/-- whether a map with two or more fields occurs -/
def Value.hasFreeOrder : Value → Bool
  | .map fs => decide (2 ≤ fs.length) || freeOrderInFields fs
  | .document fs => freeOrderInFields fs
  | .codeWithScope _ fs => freeOrderInFields fs
  | .array items => freeOrderInItems items
  | _ => false

def freeOrderInFields : List (String × Value) → Bool
  | [] => false
  | (_, v) :: rest => v.hasFreeOrder || freeOrderInFields rest

def freeOrderInItems : List Value → Bool
  | [] => false
  | v :: rest => v.hasFreeOrder || freeOrderInItems rest

end

end Bson
