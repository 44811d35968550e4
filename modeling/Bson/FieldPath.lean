/-!
# Dotted field paths

A `FieldPath` says where in a nested document something stands, as names joined by dots; the root
is the empty text. `child` goes one name down, `within` puts a name in front, `ofNames` joins a
whole list. Names are not escaped: a name may hold dots or be empty, and `segments` sees only the
text. A name put beside the root is the whole path (`root_child`, `within_root`).
-/

namespace Bson

/-- names joined by dots -/
structure FieldPath where
  text : String
  deriving DecidableEq, Repr

namespace FieldPath

def root : FieldPath := ⟨""⟩

def isRoot (p : FieldPath) : Bool := p.text == ""

def child (p : FieldPath) (name : String) : FieldPath :=
  if p.isRoot then ⟨name⟩ else ⟨p.text ++ "." ++ name⟩

/-- the path seen from one level up, where its root is the field `name` -/
def within (p : FieldPath) (name : String) : FieldPath :=
  if p.isRoot then ⟨name⟩ else ⟨name ++ "." ++ p.text⟩

def ofNames (names : List String) : FieldPath := ⟨String.intercalate "." names⟩

/-- the text as it is shown, where the root has a name -/
def display (p : FieldPath) : String := if p.isRoot then "<root>" else p.text

@[simp] theorem isRoot_root : root.isRoot = true := rfl

@[simp] theorem root_child (name : String) : root.child name = ⟨name⟩ := rfl

@[simp] theorem within_root (name : String) : root.within name = ⟨name⟩ := rfl

end FieldPath

/-- characters cut at every dot; there is always one piece more than there are dots -/
def dotPieces : List Char → List (List Char)
  | [] => [[]]
  | c :: cs =>
    if c = '.' then [] :: dotPieces cs
    else match dotPieces cs with
      | piece :: more => (c :: piece) :: more
      | [] => [[c]]

def splitDots (text : String) : List String := (dotPieces text.toList).map String.ofList

/-- the nonempty names of a path -/
def FieldPath.segments (p : FieldPath) : List String := (splitDots p.text).filter (· ≠ "")

example : splitDots "a..b" = ["a", "", "b"] := by decide
example : (FieldPath.ofNames ["", "a"]).text = ".a" := by decide

end Bson
