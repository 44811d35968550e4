import Bson.Proofs.Access.Refusals

/-!
# Dotted paths and look-ups

Two walks go along the names of a path. A dotted path goes through fields and array indices; a
look-up goes through fields, through bytes, which it decodes, and through the parts of values that
show some, but not through arrays.

* `Value.dig?`          the walk of a dotted path, name by name (`Document.getPath?_eq`);
* `GoesThrough`         a value that a walk leads to before the path ends;
* `Value.lookup_of_dig?`, `Value.dig?_of_lookup`  each walk leads where the other one does, if it
                        goes through no value that the other does not go through;
* `Value.lookup_eq_dig?`  where documents and maps alone hold anything, the walks are the same;
* `Document.dotted_lookup`  all of this for dotted paths in documents.
-/

namespace Bson

/-! ### names between dots -/

theorem dotPieces_eq (cs : List Char) : dotPieces cs = cs.splitOn '.' := by
  induction cs with
  | nil => rfl
  | cons c cs ih =>
    rw [dotPieces, ih, List.splitOn_cons_eq_if_modifyHead]
    by_cases dot : c = '.'
    · rw [if_pos dot, if_pos (beq_iff_eq.2 dot)]
    · rw [if_neg dot, if_neg (mt beq_iff_eq.1 dot)]
      obtain ⟨piece, more, pieces⟩ := List.exists_cons_of_ne_nil (List.splitOn_ne_nil '.' cs)
      rw [pieces]
      rfl

theorem dot_not_mem_dotPieces {cs piece : List Char} (h : piece ∈ dotPieces cs) : '.' ∉ piece := by
  induction cs generalizing piece with
  | nil =>
    obtain rfl := List.mem_singleton.1 h
    exact List.not_mem_nil
  | cons c cs ih =>
    rw [dotPieces] at h
    by_cases dot : c = '.'
    · rw [if_pos dot] at h
      rcases List.mem_cons.1 h with rfl | h
      · exact List.not_mem_nil
      · exact ih h
    · rw [if_neg dot] at h
      obtain ⟨first, more, pieces⟩ := List.exists_cons_of_ne_nil
        (dotPieces_eq cs ▸ List.splitOn_ne_nil '.' cs)
      rw [pieces] at h ih
      rcases List.mem_cons.1 h with rfl | h
      · exact List.not_mem_cons_of_ne_of_not_mem (Ne.symm dot) (ih (List.mem_cons_self ..))
      · exact ih (List.mem_cons_of_mem _ h)

/-- a dotted path is its names joined by dots, and its names have none -/
theorem splitDots_eq_iff {path : String} {names : List String} :
    splitDots path = names ↔
      names ≠ [] ∧ (∀ name ∈ names, '.' ∉ name.toList) ∧ String.intercalate "." names = path := by
  have dot : ".".toList = ['.'] := rfl
  rw [splitDots, dotPieces_eq]
  constructor
  · rintro rfl
    refine ⟨by simp, fun name there => ?_, ?_⟩
    · obtain ⟨piece, inside, rfl⟩ := List.mem_map.1 there
      rw [← dotPieces_eq] at inside
      rw [String.toList_ofList]
      exact dot_not_mem_dotPieces inside
    · have texts : (path.toList.splitOn '.').map (String.toList ∘ String.ofList) =
          path.toList.splitOn '.' := by simp [Function.comp_def]
      rw [← String.toList_inj, String.toList_intercalate, List.map_map, texts, dot,
        List.intercalate_splitOn]
  · rintro ⟨some, free, rfl⟩
    have pieces : ∀ piece ∈ names.map String.toList, '.' ∉ piece := List.forall_mem_map.2 free
    rw [String.toList_intercalate, dot,
      List.splitOn_intercalate '.' pieces (mt List.map_eq_nil_iff.1 some), List.map_map]
    simp [Function.comp_def]

/-! ### two walks -/

/-- a walk along a path goes through a value: it leads there before the path ends -/
def GoesThrough (leads : List String → Value → Prop) (path : List String) (u : Value) : Prop :=
  ∃ front name rest, path = front ++ name :: rest ∧ leads front u

theorem not_goesThrough_nil {leads : List String → Value → Prop} {u : Value} :
    ¬ GoesThrough leads [] u := by
  rintro ⟨front, name, rest, h, -⟩
  exact absurd h (by simp)

theorem goesThrough_cons_iff {leads : List String → Value → Prop} {name : String}
    {rest : List String} {u : Value} :
    GoesThrough leads (name :: rest) u ↔
      leads [] u ∨ GoesThrough (fun front => leads (name :: front)) rest u := by
  constructor
  · rintro ⟨front, next, back, split, h⟩
    cases front with
    | nil => exact .inl h
    | cons first front =>
      obtain ⟨rfl, rfl⟩ := List.cons.inj split
      exact .inr ⟨front, next, back, rfl, h⟩
  · rintro (h | ⟨front, next, back, rfl, h⟩)
    · exact ⟨[], name, rest, rfl, h⟩
    · exact ⟨name :: front, next, back, rfl, h⟩

namespace Value

/-- the value that names lead to, through fields and array indices -/
def dig? : (names : List String) → Value → Option Value
  | [], v => some v
  | name :: rest, v => (v.get? name).bind (dig? rest)

/-- whether a look-up goes into a value otherwise than through its fields: bytes are decoded, and
parts are shown under fixed names -/
def opened : Value → Bool
  | raw _ | regex _ | dbPointer _ | codeWithScope _ _ => true
  | _ => false

/-- whether documents and maps are the only values in a value that a walk can go into -/
def fieldsOnly : Value → Bool := everywhere fun v => v.asArray?.isNone && !v.opened

variable {v u w : Value} {name : String} {path : List String}

/-! ### one step -/

theorem child?_of_get? (flat : v.asArray? = none) (found : v.get? name = some u) :
    v.child? name = .ok (some u) := by
  cases v with
  | document fs | map fs => exact congrArg Except.ok found
  | array items => cases flat
  | _ => cases found

theorem get?_of_child? (closed : v.opened = false) (found : v.child? name = .ok (some u)) :
    v.get? name = some u := by
  cases v with
  | document fs | map fs => exact Except.ok.inj found
  | raw | regex | dbPointer | codeWithScope => cases closed
  | _ => cases found

theorem child?_eq_get? (flat : v.asArray? = none) (closed : v.opened = false) (name : String) :
    v.child? name = .ok (v.get? name) := by
  cases v with
  | array => cases flat
  | raw | regex | dbPointer | codeWithScope => cases closed
  | _ => rfl

theorem mem_children_of_get? (found : v.get? name = some u) : u ∈ v.children := by
  cases v with
  | document fs | map fs =>
    obtain ⟨before, after, rfl, -⟩ := Fields.get?_eq_some_iff.1 found
    simp [children]
  | array items =>
    obtain ⟨i, -, item⟩ := Option.bind_eq_some_iff.1 found
    exact List.mem_of_getElem? item
  | _ => cases found

theorem fieldsOnly_iff :
    v.fieldsOnly ↔ (v.asArray? = none ∧ v.opened = false) ∧ ∀ w ∈ v.children, w.fieldsOnly := by
  refine everywhere_iff.trans ?_
  rw [Bool.and_eq_true, Option.isNone_iff_eq_none, Bool.not_eq_true']
  rfl

/-! ### whole walks -/

/-- what a dotted path leads to without an index, a look-up finds -/
theorem lookup_of_dig? (leads : v.dig? path = some w)
    (flat : ∀ u, GoesThrough (fun front u => v.dig? front = some u) path u → u.asArray? = none) :
    v.lookup path = .ok (some w) := by
  induction path generalizing v with
  | nil =>
    cases leads
    rfl
  | cons name rest ih =>
    obtain ⟨u, found, leads⟩ := Option.bind_eq_some_iff.1 leads
    have here : v.asArray? = none := flat v (goesThrough_cons_iff.2 (.inl rfl))
    have below : ∀ front, v.dig? (name :: front) = u.dig? front := fun front => by
      rw [dig?, found, Option.bind_some]
    refine lookup_cons_eq_ok_some_iff.2 ⟨u, child?_of_get? here found, ih leads fun x more => ?_⟩
    refine flat x (goesThrough_cons_iff.2 (.inr ?_))
    simpa only [below] using more

/-- what a look-up finds through fields alone, a dotted path leads to -/
theorem dig?_of_lookup (leads : v.lookup path = .ok (some w))
    (closed : ∀ u, GoesThrough (fun front u => v.lookup front = .ok (some u)) path u →
      u.opened = false) : v.dig? path = some w := by
  induction path generalizing v with
  | nil =>
    cases leads
    rfl
  | cons name rest ih =>
    obtain ⟨u, found, leads⟩ := lookup_cons_eq_ok_some_iff.1 leads
    have here : v.opened = false := closed v (goesThrough_cons_iff.2 (.inl rfl))
    have below : ∀ front x, v.lookup (name :: front) = .ok (some x) ↔
        u.lookup front = .ok (some x) := fun front x => by
      rw [lookup_cons_of_child found]
      exact inField_eq_ok_iff
    refine Option.bind_eq_some_iff.2 ⟨u, get?_of_child? here found, ih leads fun x more => ?_⟩
    refine closed x (goesThrough_cons_iff.2 (.inr ?_))
    simpa only [below] using more

theorem lookup_eq_dig? (only : v.fieldsOnly) (path : List String) :
    v.lookup path = .ok (v.dig? path) := by
  induction path generalizing v with
  | nil => rfl
  | cons name rest ih =>
    obtain ⟨⟨flat, closed⟩, inside⟩ := fieldsOnly_iff.1 only
    rw [lookup_cons_of_child (child?_eq_get? flat closed name), dig?]
    cases found : v.get? name with
    | none => rfl
    | some u => exact inField_eq_ok_iff.2 (ih (inside u (mem_children_of_get? found)))

end Value

namespace Document

open Value

theorem getPath?_eq (path : String) (d : Document) :
    d.getPath? path = (document d).dig? (splitDots path) := by
  have walk (rest : List String) (found : Option Value) :
      rest.foldl (fun found name => found.bind (Value.get? name)) found =
        found.bind (dig? rest) := by
    induction rest generalizing found with
    | nil => cases found <;> rfl
    | cons name rest ih =>
      rw [List.foldl_cons, ih]
      cases found <;> rfl
  rw [getPath?]
  cases names : splitDots path with
  | nil => exact absurd names (splitDots_eq_iff.1 rfl).1
  | cons name rest => exact walk rest _

/-- **Dotted paths and look-ups**: the names of a dotted path are what stands between its dots. What
it leads to without going through an array, a look-up of its names finds; what a look-up of the
names finds without going through bytes or a value that shows parts, the dotted path leads to. In a
document in which documents and maps alone hold anything, the two are the same. -/
theorem dotted_lookup :
    (∀ path names, splitDots path = names ↔ names ≠ [] ∧ (∀ name ∈ names, '.' ∉ name.toList) ∧
      String.intercalate "." names = path) ∧
    (∀ (d : Document) path, d.getPath? path = (document d).dig? (splitDots path)) ∧
    (∀ (d : Document) path v, d.getPath? path = some v →
      (∀ u, GoesThrough (fun front u => (document d).dig? front = some u) (splitDots path) u →
        u.asArray? = none) →
      d.lookup (splitDots path) = .ok (some v)) ∧
    (∀ (d : Document) path v, d.lookup (splitDots path) = .ok (some v) →
      (∀ u, GoesThrough (fun front u => d.lookup front = .ok (some u)) (splitDots path) u →
        u.opened = false) →
      d.getPath? path = some v) ∧
    (∀ (d : Document) path, (document d).fieldsOnly →
      d.lookup (splitDots path) = .ok (d.getPath? path)) := by
  refine ⟨fun _ _ => splitDots_eq_iff, fun d path => getPath?_eq path d,
    fun d path v leads flat => ?_, fun d path v leads closed => ?_, fun d path only => ?_⟩
  · rw [getPath?_eq] at leads
    exact (Document.lookup_eq ..).trans (lookup_of_dig? leads flat)
  · simp only [Document.lookup_eq] at leads closed
    rw [getPath?_eq]
    exact dig?_of_lookup leads closed
  · rw [getPath?_eq, Document.lookup_eq]
    exact lookup_eq_dig? only _

/-- an array at the end of a path with an empty name, beside a repeated name and a regular
expression; and a document of fields alone -/
theorem dotted_lookup_empty_name :
    let d : Document := [("a", .map [("", .array [.null])]), ("a", .null), ("c", .regex ⟨"x", ""⟩)]
    let e : Document := [("", .map [("b", .null)]), ("", .undefined)]
    (d.getPath? "a." = some (.array [.null]) ∧ d.lookup ["a", ""] = .ok (some (.array [.null]))) ∧
      (document e).fieldsOnly ∧ e.lookup ["", "b"] = .ok (some .null) ∧
        e.getPath? ".b" = some .null := by
  intro d e
  obtain ⟨-, -, looked, dug, same⟩ := dotted_lookup
  have names : splitDots "a." = ["a", ""] := by decide
  have through {leads : List String → Value → Prop} {u : Value}
      (h : GoesThrough leads (splitDots "a.") u) : leads [] u ∨ leads ["a"] u := by
    rw [names, goesThrough_cons_iff, goesThrough_cons_iff] at h
    exact h.imp_right fun more => more.resolve_right not_goesThrough_nil
  have there : d.getPath? "a." = some (.array [.null]) := by
    rw [getPath?_eq, names]
    rfl
  have found : d.lookup (splitDots "a.") = .ok (some (.array [.null])) := by
    refine looked d "a." _ there fun u more => ?_
    rcases through more with h | h
    · cases h
      rfl
    · cases h
      rfl
  have back : d.getPath? "a." = some (.array [.null]) := by
    refine dug d "a." _ found fun u more => ?_
    rcases through more with h | h
    · cases h
      rfl
    · cases h
      rfl
  rw [names] at found
  have only : (document e).fieldsOnly := rfl
  have pieces : splitDots ".b" = ["", "b"] := by decide
  have both := same e ".b" only
  have value : e.getPath? ".b" = some .null := by
    rw [getPath?_eq, pieces]
    rfl
  rw [pieces, value] at both
  exact ⟨⟨back, found⟩, only, both, value⟩

end Document

end Bson
