import Bson.Proofs.Access.Walk
import Bson.Proofs.Error.Paths
import Bson.Proofs.Value.Frames

/-!
# Look-ups that are refused

* `Value.lookup_eq_error_iff`  a look-up is refused if the walk meets bytes that do not decode
                        before its end, with their error under the names walked so far, and for
                        nothing else;
* `Value.exists_lookup`  so no look-up in a value without such bytes is refused;
* `Value.lookup_at_each_entry`  all of this, and the same for a look-up in the fields of a document
                        or of a map.
-/

namespace Bson

namespace Value

variable {v u w : Value} {name : String} {rest path : List String} {e : Error}

/-! ### one step -/

theorem child?_eq_error_iff :
    v.child? name = .error e ↔ ∃ doc, v = raw doc ∧ doc.toDocument = .error e := by
  cases v with
  | raw doc =>
    rw [child?, Except.map_eq_error_iff]
    constructor
    · exact fun read => ⟨doc, rfl, read⟩
    · rintro ⟨_, ⟨⟩, read⟩
      exact read
  | _ =>
    constructor
    · intro h
      cases h
    · rintro ⟨_, ⟨⟩, -⟩

theorem lookup_cons_eq_ok_some_iff :
    v.lookup (name :: rest) = .ok (some w) ↔
      ∃ u, v.child? name = .ok (some u) ∧ u.lookup rest = .ok (some w) := by
  rw [lookup_cons]
  rcases v.child? name with e | _ | u
  · constructor
    · intro h
      cases h
    · rintro ⟨_, ⟨⟩, -⟩
  · constructor
    · intro h
      cases h
    · rintro ⟨_, ⟨⟩, -⟩
  · refine inField_eq_ok_iff.trans ⟨fun h => ⟨u, rfl, h⟩, ?_⟩
    rintro ⟨_, ⟨⟩, h⟩
    exact h

theorem lookup_cons_eq_error_iff :
    v.lookup (name :: rest) = .error e ↔
      v.child? name = .error e ∨
        ∃ u e', v.child? name = .ok (some u) ∧ u.lookup rest = .error e' ∧ e = e'.within name := by
  rw [lookup_cons]
  rcases v.child? name with e' | _ | u
  · constructor
    · exact .inl
    · rintro (h | ⟨_, _, ⟨⟩, -⟩)
      exact h
  · constructor
    · intro h
      cases h
    · rintro (⟨⟨⟩⟩ | ⟨_, _, ⟨⟩, -⟩)
  · refine inField_eq_error_iff.trans ⟨?_, ?_⟩
    · rintro ⟨e', below, same⟩
      exact .inr ⟨u, e', rfl, below, same⟩
    · rintro (⟨⟨⟩⟩ | ⟨_, e', ⟨⟩, below, same⟩)
      exact ⟨e', below, same⟩

/-! ### whole walks -/

/-- a look-up is refused exactly if the names walked so far lead to bytes that do not decode, and
the path goes on from there -/
theorem lookup_eq_error_iff :
    v.lookup path = .error e ↔
      ∃ walked name rest doc cause, path = walked ++ name :: rest ∧
        v.lookup walked = .ok (some (raw doc)) ∧ doc.toDocument = .error cause ∧
          e = cause.under walked := by
  induction path generalizing v e with
  | nil =>
    refine ⟨nofun, ?_⟩
    rintro ⟨walked, name, rest, doc, cause, h, -⟩
    exact absurd h.symm (by simp)
  | cons n path ih =>
    rw [lookup_cons_eq_error_iff]
    constructor
    · rintro (h | ⟨u, e', found, h, rfl⟩)
      · obtain ⟨doc, rfl, refused⟩ := child?_eq_error_iff.1 h
        exact ⟨[], n, path, doc, e, rfl, rfl, refused, rfl⟩
      · obtain ⟨walked, name, rest, doc, cause, rfl, leads, refused, rfl⟩ := ih.1 h
        exact ⟨n :: walked, name, rest, doc, cause, rfl,
          lookup_cons_eq_ok_some_iff.2 ⟨u, found, leads⟩, refused, rfl⟩
    · rintro ⟨walked, name, rest, doc, cause, split, leads, refused, rfl⟩
      cases walked with
      | nil =>
        injection leads with leads
        injection leads with leads
        exact .inl (child?_eq_error_iff.2 ⟨doc, leads, refused⟩)
      | cons k walked =>
        obtain ⟨rfl, rfl⟩ := List.cons.inj split
        obtain ⟨u, found, leads⟩ := lookup_cons_eq_ok_some_iff.1 leads
        exact .inr ⟨u, _, found, ih.2 ⟨walked, name, rest, doc, cause, rfl, leads, refused, rfl⟩,
          rfl⟩

/-! ### values without bytes that were not read -/

theorem holds_of_part? {doc : RawDocument} (part : v.part? name = some u) (holds : Holds doc u) :
    Holds doc v := by
  cases v with
  | regex | dbPointer =>
    rw [part?] at part
    split at part
    · cases part
      cases holds with | inside child => cases child
    · split at part
      · cases part
        cases holds with | inside child => cases child
      · cases part
  | codeWithScope code scope =>
    rw [part?] at part
    split at part
    · cases part
      cases holds with | inside child => cases child
    · split at part
      · cases part
        cases holds with | inside child inner => exact .inside child inner
      · cases part
  | _ => cases part

theorem holds_of_child? {doc : RawDocument} (read : ∀ doc, v ≠ raw doc)
    (found : v.child? name = .ok (some u)) (holds : Holds doc u) : Holds doc v := by
  rcases (child?_eq_ok_some_iff read).1 found with ⟨before, after, fields, -⟩ | part
  · have member : u ∈ (before ++ (name, u) :: after).map Prod.snd := by simp
    cases v with
    | document fs | map fs =>
      injection fields with fields
      exact .inside (fields ▸ member) holds
    | _ => cases fields
  · exact holds_of_part? part holds

theorem holds_of_lookup {doc : RawDocument} (leads : v.lookup path = .ok (some (raw doc))) :
    ∃ doc, Holds doc v := by
  induction path generalizing v with
  | nil =>
    injection leads with leads
    injection leads with here
    obtain rfl : v = raw doc := here
    exact ⟨doc, .raw⟩
  | cons name rest ih =>
    obtain ⟨u, found, leads⟩ := lookup_cons_eq_ok_some_iff.1 leads
    by_cases unread : ∃ doc, v = raw doc
    · obtain ⟨doc, rfl⟩ := unread
      exact ⟨doc, .raw⟩
    · obtain ⟨doc, holds⟩ := ih leads
      exact ⟨doc, holds_of_child? (not_exists.1 unread) found holds⟩

/-- no look-up in a value without such bytes is refused -/
theorem exists_lookup (read : ∀ doc, ¬ Holds doc v) (path : List String) :
    ∃ found, v.lookup path = .ok found := by
  cases h : v.lookup path with
  | ok found => exact ⟨found, rfl⟩
  | error e =>
    obtain ⟨walked, _, _, doc, -, -, leads, -⟩ := lookup_eq_error_iff.1 h
    obtain ⟨doc, holds⟩ := holds_of_lookup leads
    exact absurd holds (read doc)

/-- **One look-up, three entries**: a document and a map are looked into as the values that they
are. A look-up is refused exactly if it walks into bytes that do not decode; its error is theirs,
under the names walked so far, which are joined by dots in front of its path if none is empty. In a
value without such bytes none is refused. -/
theorem lookup_at_each_entry :
    (∀ (d : Document) path, d.lookup path = (document d).lookup path) ∧
    (∀ (m : DocumentMap) path, m.lookup path = (map m).lookup path) ∧
    (∀ (v : Value) path e, v.lookup path = .error e ↔
      ∃ walked name rest doc cause, path = walked ++ name :: rest ∧
        v.lookup walked = .ok (some (raw doc)) ∧
          Config.standard.decodeDocument .nested doc.bytes = .error cause ∧
            e = cause.under walked) ∧
    (∀ walked p f, (∀ name ∈ walked, name ≠ "") →
      (Error.located p f).under walked = .located (.ofNames (walked ++ p.parts)) f) ∧
    (∀ (v : Value) path, (∀ doc, ¬ Holds doc v) → ∃ found, v.lookup path = .ok found) := by
  refine ⟨Document.lookup_eq, DocumentMap.lookup_eq, fun v path e => lookup_eq_error_iff,
    fun walked p f named => ?_, fun v path read => exists_lookup read path⟩
  rw [Error.under_located, FieldPath.under_of_named named]

/-- bytes with an unknown tag behind a document and a map, and a scope without such bytes -/
theorem lookup_at_each_entry_unknown_tag :
    let doc : RawDocument := ⟨[8, 0, 0, 0, 32, 120, 0, 0]⟩
    let d : Document := [("a", .map [("b", .raw doc)])]
    let e : Error := .located (.ofNames ["a", "b", "x"]) (.invalidElementType 32)
    d.lookup ["a", "b"] = .ok (some (.raw doc)) ∧ d.lookup ["a", "b", "c"] = .error e ∧
      DocumentMap.lookup ["a", "b", "c"] d = .error e ∧
        ∃ found, (codeWithScope "f" [("a", .null)]).lookup ["Scope", "a", "b"] = .ok found := by
  intro doc d e
  obtain ⟨documents, maps, refused, seen, never⟩ := lookup_at_each_entry
  let cause : Error := .located ⟨"x"⟩ (.invalidElementType 32)
  have path : cause.under ["a", "b"] = e := seen _ _ _ (by decide)
  have field : ∀ v : Value, v.lookup ["a", "b"] = .ok (some (.raw doc)) →
      v.lookup ["a", "b", "c"] = .error e := fun v leads =>
    (refused v _ e).2 ⟨["a", "b"], "c", [], doc, cause, rfl, leads, rfl, path.symm⟩
  refine ⟨rfl, ?_, ?_, never _ _ fun doc holds => ?_⟩
  · rw [documents]
    exact field _ rfl
  · rw [maps]
    exact field _ rfl
  · cases holds with
    | inside child holds =>
      obtain rfl := List.mem_singleton.1 child
      cases holds with
      | inside child => cases child

end Value

end Bson
