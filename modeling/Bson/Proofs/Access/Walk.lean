import Bson.Access.Lookup
import Bson.Proofs.Result
import Bson.Proofs.Value.Children

/-!
# Walks along a path

* `Value.child?`        the value under a name, whether the value is lent or owned
                        (`Held.child?_value`), so that a look-up is a walk over values alone
                        (`Value.lookup_cons`), and one in fields is one in the value that they are
                        (`Document.lookup_eq`, `DocumentMap.lookup_eq`);
* `Value.Finds`         what a path leads to: through the first field of each name, and through
                        the parts of values that show some;
* `Value.lookup_plain`  in a value that holds no map and no bytes that were not read, every look-up
                        succeeds, and finds what the path leads to.
-/

namespace Bson

def Value.child? (name : String) : Value → Except Error (Option Value)
  | .document fs | .map fs => .ok (Fields.get? name fs)
  | .raw doc => doc.toDocument.map (Fields.get? name)
  | v => .ok (v.part? name)

/-- the walk goes on with what was found -/
def Value.follow (name : String) (rest : List String) : Option Value → Except Error (Option Value)
  | none => .ok none
  | some w => inField name (w.lookup rest)

/-! ### both ways of holding a value -/

namespace Held

theorem remove?_value (name : String) (fs : Fields Value) :
    (Fields.remove? name fs).map Prod.fst = Fields.get? name fs := by
  rw [Fields.remove?_eq, Option.map_map]
  exact Option.map_id'

theorem child?_value (h : Held) (name : String) :
    (h.child? name).map (Option.map value) = h.value.child? name := by
  have held {f : Value → Held} (hf : ∀ v, (f v).value = v) (found : Option Value) :
      (found.map f).map value = found := by
    cases found with
    | none => rfl
    | some v => exact congrArg some (hf v)
  cases h with
  | lent v =>
    cases v with
    | document fs | map fs => exact congrArg Except.ok (held (fun _ => rfl) _)
    | raw doc =>
      show (doc.toDocument.map fun fs => _).map _ = doc.toDocument.map _
      cases doc.toDocument with
      | error e => rfl
      | ok fs =>
        refine congrArg Except.ok ?_
        rw [Option.map_map, ← remove?_value]
        rfl
    | _ => exact congrArg Except.ok (held (fun _ => rfl) _)
  | owned v =>
    have same : childOfOwned? name v = v.child? name := by
      cases v with
      | document fs | map fs => exact congrArg Except.ok (remove?_value name fs)
      | raw doc => exact congrArg doc.toDocument.map (funext (remove?_value name))
      | _ => rfl
    show ((childOfOwned? name v).map _).map _ = v.child? name
    rw [same]
    cases v.child? name with
    | error e => rfl
    | ok found => exact congrArg Except.ok (held (fun _ => rfl) found)

theorem descend_cons {name : String} {rest : List String}
    (ih : ∀ next : Held, (next.descend rest).map (Option.map value) = next.value.lookup rest)
    (h : Held) : (h.descend (name :: rest)).map (Option.map value) =
      (h.value.child? name).bind (Value.follow name rest) := by
  rw [descend, ← child?_value]
  cases h.child? name with
  | error e => rfl
  | ok found =>
    cases found with
    | none => rfl
    | some next =>
      show (inField name (next.descend rest)).map _ = inField name (next.value.lookup rest)
      rw [← ih]
      cases next.descend rest <;> rfl

/-- a walk finds the same from a value that is lent as from one that is owned -/
theorem descend_value (path : List String) (h : Held) :
    (h.descend path).map (Option.map value) = h.value.lookup path := by
  induction path generalizing h with
  | nil => cases h <;> rfl
  | cons name rest ih => exact (descend_cons ih h).trans (descend_cons ih (lent h.value)).symm

end Held

namespace Value

variable {v w : Value}

theorem lookup_cons (name : String) (rest : List String) (v : Value) :
    v.lookup (name :: rest) = (v.child? name).bind (follow name rest) :=
  Held.descend_cons (Held.descend_value rest) (.lent v)

theorem lookup_cons_of_child {name : String} {found : Option Value} (h : v.child? name = .ok found)
    (rest : List String) : v.lookup (name :: rest) = follow name rest found := by
  rw [lookup_cons, h]
  rfl

end Value

theorem lookupField_eq (name : String) (rest : List String) (fs : Fields Value) :
    lookupField name rest fs = Value.follow name rest (Fields.get? name fs) := by
  unfold lookupField
  cases Fields.get? name fs <;> rfl

theorem Document.lookup_eq (d : Document) (path : List String) :
    d.lookup path = (Value.document d).lookup path := by
  cases path with
  | nil => rfl
  | cons name rest =>
    exact (lookupField_eq name rest d).trans (Value.lookup_cons_of_child rfl rest).symm

theorem DocumentMap.lookup_eq (m : DocumentMap) (path : List String) :
    m.lookup path = (Value.map m).lookup path := by
  cases path with
  | nil => rfl
  | cons name rest =>
    exact (lookupField_eq name rest m).trans (Value.lookup_cons_of_child rfl rest).symm

/-! ### what a path leads to -/

namespace Value

variable {v w : Value}

def fields? : Value → Option (Fields Value)
  | document fs | map fs => some fs
  | _ => none

/-- the path leads from one value to the other: through the first field of a name, and through the
parts that are shown under fixed names -/
inductive Finds : Value → List String → Value → Prop
  | here {v : Value} : Finds v [] v
  | field {v u w : Value} {before after : Fields Value} {name : String} {rest : List String} :
      v.fields? = some (before ++ (name, u) :: after) → name ∉ before.names →
      Finds u rest w → Finds v (name :: rest) w
  | part {v u w : Value} {name : String} {rest : List String} :
      v.part? name = some u → Finds u rest w → Finds v (name :: rest) w

theorem finds_nil_iff : v.Finds [] w ↔ w = v :=
  ⟨fun h => by cases h; rfl, fun h => h ▸ .here⟩

theorem child?_eq_ok_some_iff (read : ∀ doc, v ≠ raw doc) {name : String} {u : Value} :
    v.child? name = .ok (some u) ↔
      (∃ before after : Fields Value,
        v.fields? = some (before ++ (name, u) :: after) ∧ name ∉ before.names) ∨
      v.part? name = some u := by
  cases v with
  | document fs | map fs =>
    have fields : ¬ (none : Option Value) = some u := nofun
    show _ ↔ (∃ _ _, some fs = some _ ∧ _) ∨ none = some u
    rw [child?, Except.ok.injEq, Fields.get?_eq_some_iff, or_iff_left fields]
    simp only [Option.some.injEq]
  | raw doc => exact absurd rfl (read doc)
  | _ =>
    rw [child?, Except.ok.injEq]
    · exact (or_iff_right fun ⟨_, _, h, _⟩ => by cases h).symm
    all_goals nofun

theorem finds_cons_iff (read : ∀ doc, v ≠ raw doc) {name : String} {rest : List String} :
    v.Finds (name :: rest) w ↔ ∃ u, v.child? name = .ok (some u) ∧ u.Finds rest w := by
  constructor
  · intro h
    cases h with
    | field hfs first more =>
      exact ⟨_, (child?_eq_ok_some_iff read).2 (.inl ⟨_, _, hfs, first⟩), more⟩
    | part hu more => exact ⟨_, (child?_eq_ok_some_iff read).2 (.inr hu), more⟩
  · intro hx
    obtain ⟨u, hu, more⟩ := hx
    rcases (child?_eq_ok_some_iff read).1 hu with ⟨before, after, hfs, first⟩ | hu
    · exact .field hfs first more
    · exact .part hu more

theorem plain_part? {name : String} {u : Value} (plain : v.plain) (h : v.part? name = some u) :
    u.plain := by
  cases v with
  | regex | dbPointer =>
    rw [part?] at h
    split at h
    · cases h
      rfl
    · split at h
      · cases h
        rfl
      · cases h
  | codeWithScope code scope =>
    rw [part?] at h
    split at h
    · cases h
      rfl
    · split at h
      · cases h
        exact everywhere_iff.2 ⟨rfl, (everywhere_iff.1 plain).2⟩
      · cases h
  | _ => cases h

theorem plain_child? (name : String) (plain : v.plain) :
    ∃ found, v.child? name = .ok found ∧ ∀ u, found = some u → u.plain := by
  obtain ⟨here, inside⟩ := everywhere_iff.1 plain
  cases v with
  | map | raw => cases here
  | document fs =>
    refine ⟨_, rfl, fun u hu => ?_⟩
    obtain ⟨before, after, rfl, -⟩ := Fields.get?_eq_some_iff.1 hu
    have field : (name, u) ∈ before ++ (name, u) :: after := List.mem_append_right _ (.head _)
    exact inside u (List.mem_map_of_mem field)
  | _ => exact ⟨_, rfl, fun u hu => plain_part? plain hu⟩

/-- no look-up in a plain value is refused, and each finds what the path leads to -/
theorem lookup_plain (plain : v.plain) (path : List String) :
    ∃ found, v.lookup path = .ok found ∧ ∀ w, found = some w ↔ v.Finds path w := by
  induction path generalizing v with
  | nil =>
    refine ⟨some v, rfl, fun w => ?_⟩
    rw [finds_nil_iff, Option.some.injEq, eq_comm]
  | cons name rest ih =>
    have read : ∀ doc, v ≠ raw doc := by
      rintro doc rfl
      cases plain
    obtain ⟨child, hchild, below⟩ := plain_child? name plain
    have step := lookup_cons name rest v
    rw [hchild] at step
    cases child with
    | none =>
      refine ⟨none, step, fun w => ?_⟩
      rw [finds_cons_iff read, hchild]
      exact ⟨nofun, fun ⟨_, h, _⟩ => by cases h⟩
    | some u =>
      obtain ⟨found, hfound, leads⟩ := ih (below u rfl)
      refine ⟨found, step.trans (inField_eq_ok_iff.2 hfound), fun w => ?_⟩
      rw [leads, finds_cons_iff read, hchild]
      simp only [Except.ok.injEq, Option.some.injEq, exists_eq_left']

end Value

end Bson
