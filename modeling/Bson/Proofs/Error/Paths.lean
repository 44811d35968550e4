import Bson.Error

/-!
# Errors seen from several levels up

An error is located from the inside out: each level puts its name in front.

* `FieldPath.under`, `Error.under`  what comes of it after a list of names, the outermost first;
* `FieldPath.under_of_named`  names that are not empty are joined by dots, in front of the path that
                        there was (`FieldPath.parts`); an empty name at the end would be lost;
* `Error.under_of_path?_eq_none`  an error without a path is the same from everywhere.
-/

namespace Bson

namespace FieldPath

/-- the path as it is seen from as many levels up as there are names -/
def under (names : List String) (p : FieldPath) : FieldPath :=
  names.foldr (fun name q => q.within name) p

/-- the path as one part of a longer one, of which the root is none -/
def parts (p : FieldPath) : List String := if p.isRoot then [] else [p.text]

@[simp] theorem parts_root : root.parts = [] := rfl

@[simp] theorem under_nil (p : FieldPath) : p.under [] = p := rfl

@[simp] theorem under_cons (name : String) (names : List String) (p : FieldPath) :
    p.under (name :: names) = (p.under names).within name := rfl

theorem isRoot_iff {p : FieldPath} : p.isRoot ↔ p = root := by
  cases p
  rw [isRoot, beq_iff_eq, root, mk.injEq]

theorem text_ofNames_append {names more : List String} (first : names ≠ []) (rest : more ≠ []) :
    (ofNames (names ++ more)).text = (ofNames names).text ++ "." ++ (ofNames more).text :=
  String.intercalate_append_of_ne_nil first rest

theorem ofNames_eq_root_iff {names : List String} :
    ofNames names = root ↔ names = [] ∨ names = [""] := by
  constructor
  · intro empty
    rcases names with _ | ⟨name, rest⟩
    · exact .inl rfl
    by_cases more : rest = []
    · subst more
      rw [ofNames, String.intercalate_singleton] at empty
      exact .inr (congrArg (fun p => [p.text]) empty)
    · have text : (ofNames (name :: rest)).text = "" := congrArg FieldPath.text empty
      rw [← List.singleton_append, text_ofNames_append (List.cons_ne_nil _ _) more,
        String.append_eq_empty_iff, String.append_eq_empty_iff] at text
      exact absurd text.1.2 (by decide)
  · rintro (rfl | rfl) <;> rfl

theorem within_ofNames (name : String) {names : List String} (seen : names ≠ [""]) :
    (ofNames names).within name = ofNames (name :: names) := by
  by_cases above : names = []
  · subst above
    rw [ofNames, ofNames, String.intercalate_nil, String.intercalate_singleton]
    rfl
  · have begun : ¬ (ofNames names).isRoot = true := by
      rw [isRoot_iff, ofNames_eq_root_iff]
      exact not_or.2 ⟨above, seen⟩
    rw [within, if_neg begun, ofNames, ofNames, String.intercalate_cons_of_ne_nil above]

theorem ofNames_parts (p : FieldPath) : ofNames p.parts = p := by
  unfold parts ofNames
  by_cases atRoot : p.isRoot = true
  · rw [if_pos atRoot, String.intercalate_nil]
    exact congrArg mk (beq_iff_eq.1 atRoot).symm
  · rw [if_neg atRoot, String.intercalate_singleton]

theorem parts_named (p : FieldPath) : ∀ name ∈ p.parts, name ≠ "" := by
  unfold parts
  by_cases atRoot : p.isRoot = true
  · rw [if_pos atRoot]
    exact List.forall_mem_nil _
  · rw [if_neg atRoot, List.forall_mem_singleton]
    exact fun empty => atRoot (beq_iff_eq.2 empty)

/-- names that are not empty are joined by dots, in front of the path -/
theorem under_of_named {names : List String} (named : ∀ name ∈ names, name ≠ "") (p : FieldPath) :
    p.under names = ofNames (names ++ p.parts) := by
  induction names with
  | nil => exact (ofNames_parts p).symm
  | cons name rest ih =>
    obtain ⟨-, named⟩ := List.forall_mem_cons.1 named
    have all : ∀ n ∈ rest ++ p.parts, n ≠ "" :=
      List.forall_mem_append.2 ⟨named, p.parts_named⟩
    have seen : rest ++ p.parts ≠ [""] := fun single => all "" (single ▸ List.mem_cons_self ..) rfl
    rw [under_cons, ih named, within_ofNames name seen, List.cons_append]

theorem length_within (name : String) (p : FieldPath) :
    (p.within name).text.length =
      name.length + if p.text.length = 0 then 0 else 1 + p.text.length := by
  have atRoot : p.isRoot = true ↔ p.text.length = 0 := by
    rw [isRoot, beq_iff_eq, String.length_eq_zero_iff]
  rw [within]
  by_cases root : p.isRoot = true
  · rw [if_pos root, if_pos (atRoot.1 root), Nat.add_zero]
  · rw [if_neg root, if_neg (mt atRoot.2 root), String.length_append, String.length_append,
      Nat.add_assoc]
    rfl

theorem under_root {names : List String} (named : ∀ name ∈ names, name ≠ "") :
    root.under names = ofNames names := by
  rw [under_of_named named, parts_root, List.append_nil]

end FieldPath

namespace Error

/-- the error as it is seen from as many levels up as there are names -/
def under (names : List String) (e : Error) : Error := names.foldr within e

@[simp] theorem under_nil (e : Error) : e.under [] = e := rfl

@[simp] theorem under_cons (name : String) (names : List String) (e : Error) :
    e.under (name :: names) = (e.under names).within name := rfl

theorem under_append (names more : List String) (e : Error) :
    e.under (names ++ more) = (e.under more).under names := List.foldr_append

theorem under_located (names : List String) (p : FieldPath) (f : Fault) :
    (located p f).under names = located (p.under names) f := by
  induction names with
  | nil => rfl
  | cons name rest ih => rw [under_cons, ih, within, FieldPath.under_cons]

theorem under_of_path?_eq_none {e : Error} (h : e.path? = none) (names : List String) :
    e.under names = e := by
  induction names with
  | nil => rfl
  | cons name rest ih =>
    rw [under_cons, ih]
    cases e with
    | located => cases h
    | io | documentTooLarge => rfl

end Error

theorem Fault.under_of_named {names : List String} (named : ∀ name ∈ names, name ≠ "")
    (f : Fault) : f.error.under names = .located (.ofNames names) f := by
  rw [Fault.error, Error.under_located, FieldPath.under_root named]

end Bson
