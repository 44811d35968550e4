/-!
# Limits and conventions of decoding

* `ArrayOrder`    how the items of an array are put in order by their names;
* `Config`        the size ceiling of a document, the nesting limit (the top document counts one),
                  and the array order; `Config.standard` is the configuration used where none is
                  given.
-/

namespace Bson

/-- how the items of an array are put in order by their names: as numbers or as texts -/
inductive ArrayOrder where
  | numeric
  | lexicographic
  deriving DecidableEq, Repr

/-- the limits and conventions of decoding -/
structure Config where
  maxDocumentSize : Nat := 16 * 1024 * 1024
  maxNestingDepth : Nat := 100
  arrayOrder : ArrayOrder := .numeric
  deriving DecidableEq, Repr

def Config.standard : Config := {}

/-- how much of a document is decoded: all of it, or the top level with its embedded documents
left as bytes -/
inductive Nesting where
  | nested
  | noNest
  deriving DecidableEq, Repr

inductive Shape where
  | document
  | map
  deriving DecidableEq, Repr

end Bson
