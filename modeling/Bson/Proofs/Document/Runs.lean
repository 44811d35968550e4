import Bson.Document.Store
import Bson.Proofs.Fields.Alike

/-!
# Runs of operations on a document and on a map

* `StoreOp.run`         operations one after the other: their answers, and the fields afterwards;
* `StoreOp.perform_alike`  on a document of different names and a map with the same fields, an
                        operation answers the same, and leaves them so;
* `StoreOp.EntersAt`    the operation by which a name entered for good: where it was inserted first
                        since it was last removed;
* `StoreOp.InOrderOfEntry`  the names that are there, in the order in which they entered;
* `StoreOp.run_same`    so a run from the start gives the same answers on both, and keeps the names
                        of the document apart and in that order.
-/

namespace Bson

namespace StoreOp

/-- operations one after the other, on the fields `fs`: the answers, and the fields afterwards -/
def run (perform : StoreOp → Fields Value → StoreAnswer × Fields Value) (fs : Fields Value) :
    List StoreOp → List StoreAnswer × Fields Value
  | [] => ([], fs)
  | op :: ops =>
    let (answer, next) := perform op fs
    let (answers, last) := run perform next ops
    (answer :: answers, last)

theorem run_concat (perform : StoreOp → Fields Value → StoreAnswer × Fields Value)
    (fs : Fields Value) (ops : List StoreOp) (op : StoreOp) :
    run perform fs (ops ++ [op]) =
      ((run perform fs ops).1 ++ [(perform op (run perform fs ops).2).1],
        (perform op (run perform fs ops).2).2) := by
  induction ops generalizing fs with
  | nil => rfl
  | cons first ops ih => simp only [List.cons_append, run, ih]

/-! ### answers -/

variable {d : Document} {m : DocumentMap}

theorem perform_alike (h : Fields.Alike d m) (op : StoreOp) :
    (Document.perform op d).1 = (DocumentMap.perform op m).1 ∧
      Fields.Alike (Document.perform op d).2 (DocumentMap.perform op m).2 := by
  cases op with
  | insert name v => exact ⟨congrArg StoreAnswer.value (h.get?_eq name), h.insert name v⟩
  | set name v => exact ⟨congrArg StoreAnswer.flag (h.contains_eq name), h.set name v⟩
  | remove name => exact ⟨congrArg StoreAnswer.value (h.get?_eq name), h.erase name⟩
  | get name => exact ⟨congrArg StoreAnswer.value (h.get?_eq name), h⟩
  | contains name => exact ⟨congrArg StoreAnswer.flag (h.contains_eq name), h⟩
  | size => exact ⟨congrArg StoreAnswer.count h.length_eq, h⟩

theorem run_alike (h : Fields.Alike d m) (ops : List StoreOp) :
    (run Document.perform d ops).1 = (run DocumentMap.perform m ops).1 ∧
      Fields.Alike (run Document.perform d ops).2 (run DocumentMap.perform m ops).2 := by
  induction ops generalizing d m with
  | nil => exact ⟨rfl, h⟩
  | cons op ops ih =>
    obtain ⟨answer, next⟩ := perform_alike h op
    obtain ⟨answers, last⟩ := ih next
    exact ⟨congrArg₂ List.cons answer answers, last⟩

/-! ### the order of the names -/

/-- the operation at `i` inserts a name that is not there since it was last removed, and is not
removed afterwards -/
structure EntersAt (ops : List StoreOp) (name : String) (i : Nat) : Prop where
  inserted : ∃ v, ops[i]? = some (.insert name v)
  first : ∀ j < i, ∀ v, ops[j]? = some (.insert name v) →
    ∃ k, j < k ∧ k < i ∧ ops[k]? = some (.remove name)
  stays : ∀ k, i < k → ops[k]? ≠ some (.remove name)

variable {ops : List StoreOp} {op : StoreOp} {name : String} {i : Nat}

theorem EntersAt.lt (h : EntersAt ops name i) : i < ops.length := by
  obtain ⟨v, there⟩ := h.inserted
  exact (List.getElem?_eq_some_iff.1 there).1

theorem exists_entersAt {v : Value} (inserted : ops[i]? = some (.insert name v))
    (stays : ∀ k, i < k → ops[k]? ≠ some (.remove name)) : ∃ j, EntersAt ops name j := by
  induction i using Nat.strongRecOn generalizing v with
  | ind i ih =>
    by_cases first : ∀ j < i, ∀ w, ops[j]? = some (.insert name w) →
        ∃ k, j < k ∧ k < i ∧ ops[k]? = some (.remove name)
    · exact ⟨i, ⟨v, inserted⟩, first, stays⟩
    · push Not at first
      obtain ⟨j, before, w, earlier, between⟩ := first
      refine ih j before earlier fun k after removed => ?_
      -- not removed before the later insertion, nor by it, nor after it
      rcases Nat.lt_trichotomy k i with lt | rfl | gt
      · exact between k after lt removed
      · rw [inserted] at removed
        cases removed
      · exact stays k gt removed

theorem getElem?_concat_of_lt {k : Nat} (h : k < ops.length) : (ops ++ [op])[k]? = ops[k]? :=
  List.getElem?_append_left h

theorem lt_or_eq_of_getElem?_concat {k : Nat} {other : StoreOp}
    (h : (ops ++ [op])[k]? = some other) :
    k < ops.length ∧ ops[k]? = some other ∨ k = ops.length ∧ op = other := by
  rcases Nat.lt_or_ge k ops.length with lt | ge
  · rw [getElem?_concat_of_lt lt] at h
    exact .inl ⟨lt, h⟩
  · have bound := (List.getElem?_eq_some_iff.1 h).1
    rw [List.length_append, List.length_singleton] at bound
    obtain rfl : k = ops.length := by omega
    rw [List.getElem?_concat_length] at h
    exact .inr ⟨rfl, Option.some_inj.1 h⟩

/-- one operation more leaves the entry of a name as it was, unless it removes the name -/
theorem entersAt_concat_of_lt (lt : i < ops.length) :
    EntersAt (ops ++ [op]) name i ↔ EntersAt ops name i ∧ op ≠ .remove name := by
  have old {k : Nat} (below : k < i) := @getElem?_concat_of_lt ops op k (Nat.lt_trans below lt)
  have inserted := @getElem?_concat_of_lt ops op i lt
  have first : (∀ j < i, ∀ v, (ops ++ [op])[j]? = some (.insert name v) →
        ∃ k, j < k ∧ k < i ∧ (ops ++ [op])[k]? = some (.remove name)) ↔
      ∀ j < i, ∀ v, ops[j]? = some (.insert name v) →
        ∃ k, j < k ∧ k < i ∧ ops[k]? = some (.remove name) := by
    refine forall₂_congr fun j before => ?_
    rw [old before]
    refine forall₂_congr fun v _ => exists_congr fun k => and_congr_right fun _ => ?_
    exact and_congr_right fun below => by rw [old below]
  constructor
  · intro h
    refine ⟨⟨inserted ▸ h.inserted, first.1 h.first, fun k after removed => ?_⟩, ?_⟩
    · have bound := (List.getElem?_eq_some_iff.1 removed).1
      exact h.stays k after (getElem?_concat_of_lt bound ▸ removed)
    · rintro rfl
      exact h.stays _ lt List.getElem?_concat_length
  · rintro ⟨h, kept⟩
    refine ⟨inserted ▸ h.inserted, first.2 h.first, fun k after removed => ?_⟩
    rcases lt_or_eq_of_getElem?_concat removed with ⟨-, there⟩ | ⟨-, last⟩
    · exact h.stays k after there
    · exact kept last

/-- by the last operation a name enters if it is inserted and had not entered before -/
theorem entersAt_concat_length :
    EntersAt (ops ++ [op]) name ops.length ↔
      (∃ v, op = .insert name v) ∧ ∀ j, ¬ EntersAt ops name j := by
  constructor
  · intro h
    obtain ⟨v, there⟩ := h.inserted
    rw [List.getElem?_concat_length] at there
    refine ⟨⟨v, Option.some_inj.1 there⟩, fun j entered => ?_⟩
    -- had it entered before, the insertion would have to follow a removal
    obtain ⟨w, earlier⟩ := entered.inserted
    rw [← @getElem?_concat_of_lt ops op j entered.lt] at earlier
    obtain ⟨k, above, below, removed⟩ := h.first j entered.lt w earlier
    exact entered.stays k above (getElem?_concat_of_lt below ▸ removed)
  · rintro ⟨⟨v, rfl⟩, missing⟩
    refine ⟨⟨v, List.getElem?_concat_length⟩, fun j before w earlier => ?_,
      fun k after removed => ?_⟩
    · by_contra between
      push Not at between
      rw [getElem?_concat_of_lt before] at earlier
      obtain ⟨i, entered⟩ := exists_entersAt earlier fun k after removed => by
        have below := (List.getElem?_eq_some_iff.1 removed).1
        exact between k after below (getElem?_concat_of_lt below ▸ removed)
      exact missing i entered
    · rcases lt_or_eq_of_getElem?_concat removed with ⟨lt, -⟩ | ⟨rfl, -⟩
      · exact Nat.lt_asymm after lt
      · exact Nat.lt_irrefl _ after

/-- one operation more: a name that had entered stays unless it is removed, and one that had not
enters if it is inserted -/
theorem entersAt_concat_iff :
    EntersAt (ops ++ [op]) name i ↔
      EntersAt ops name i ∧ op ≠ .remove name ∨
        i = ops.length ∧ (∃ v, op = .insert name v) ∧ ∀ j, ¬ EntersAt ops name j := by
  rcases Nat.lt_trichotomy i ops.length with lt | rfl | gt
  · rw [entersAt_concat_of_lt lt, or_iff_left fun last => Nat.ne_of_lt lt last.1]
  · rw [entersAt_concat_length, or_iff_right fun old => Nat.lt_irrefl _ old.1.lt, and_iff_right rfl]
  · refine iff_of_false (fun h => ?_) ?_
    · have bound := h.lt
      rw [List.length_append, List.length_singleton] at bound
      omega
    · rintro (⟨h, -⟩ | ⟨rfl, -⟩)
      · exact Nat.lt_asymm gt h.lt
      · exact Nat.lt_irrefl _ gt

/-- the names that have entered, and only they, in the order in which they did -/
structure InOrderOfEntry (ops : List StoreOp) (names : List String) : Prop where
  mem_iff : ∀ name, name ∈ names ↔ ∃ i, EntersAt ops name i
  order : names.Pairwise fun a b => ∀ i j, EntersAt ops a i → EntersAt ops b j → i < j

theorem names_perform (op : StoreOp) (d : Document) :
    Fields.names (Document.perform op d).2 =
      match op with
      | .insert name _ =>
        if name ∈ Fields.names d then Fields.names d else Fields.names d ++ [name]
      | .remove name => (Fields.names d).erase name
      | _ => Fields.names d := by
  cases op with
  | insert name v => exact Fields.names_insert name v d
  | set name v => exact Fields.names_set name v d
  | remove name => exact Fields.names_erase name d
  | _ => rfl

namespace InOrderOfEntry

variable {names : List String}

theorem start : InOrderOfEntry [] [] where
  mem_iff _ := iff_of_false nofun fun ⟨_, entered⟩ => Nat.not_lt_zero _ entered.lt
  order := .nil

theorem nodup (h : InOrderOfEntry ops names) : names.Nodup := by
  refine h.order.imp_of_mem fun {a b} ha _ before same => ?_
  obtain ⟨i, entered⟩ := (h.mem_iff a).1 ha
  exact Nat.lt_irrefl i (before i i entered (same ▸ entered))

theorem unchanged (h : InOrderOfEntry ops names) (kept : ∀ name, op ≠ .remove name)
    (there : ∀ name v, op = .insert name v → name ∈ names) :
    InOrderOfEntry (ops ++ [op]) names := by
  have same (name : String) (i : Nat) : EntersAt (ops ++ [op]) name i ↔ EntersAt ops name i := by
    rw [entersAt_concat_iff, and_iff_left (kept name)]
    refine or_iff_left ?_
    rintro ⟨-, ⟨v, inserted⟩, missing⟩
    obtain ⟨j, entered⟩ := (h.mem_iff name).1 (there name v inserted)
    exact missing j entered
  exact ⟨fun name => by simp only [same, h.mem_iff], by simpa only [same] using h.order⟩

theorem insert_new (h : InOrderOfEntry ops names) (missing : name ∉ names) (v : Value) :
    InOrderOfEntry (ops ++ [.insert name v]) (names ++ [name]) := by
  have notEntered : ∀ i, ¬ EntersAt ops name i :=
    not_exists.1 (mt (h.mem_iff name).2 missing)
  have old (other : String) (i : Nat) (ne : other ≠ name) :
      EntersAt (ops ++ [.insert name v]) other i ↔ EntersAt ops other i := by
    rw [entersAt_concat_iff, and_iff_left nofun]
    refine or_iff_left ?_
    rintro ⟨-, ⟨w, same⟩, -⟩
    injection same with same
    exact ne same.symm
  have new (i : Nat) : EntersAt (ops ++ [.insert name v]) name i ↔ i = ops.length := by
    rw [entersAt_concat_iff, or_iff_right fun entered => notEntered i entered.1,
      and_iff_left ⟨⟨v, rfl⟩, notEntered⟩]
  refine ⟨fun other => ?_, List.pairwise_append.2 ⟨?_, List.pairwise_singleton _ _, ?_⟩⟩
  · rw [List.mem_append, List.mem_singleton, h.mem_iff]
    by_cases same : other = name
    · simp only [same, new, exists_eq, or_true]
    · simp only [old other _ same, or_iff_left same]
  · refine h.order.imp_of_mem fun {a b} ha hb before i j => ?_
    rw [old a i (ne_of_mem_of_not_mem ha missing), old b j (ne_of_mem_of_not_mem hb missing)]
    exact before i j
  · intro a ha b hb i j
    rw [List.mem_singleton.1 hb, old a i (ne_of_mem_of_not_mem ha missing), new]
    rintro entered rfl
    exact entered.lt

theorem remove (h : InOrderOfEntry ops names) (name : String) :
    InOrderOfEntry (ops ++ [.remove name]) (names.erase name) := by
  have left (other : String) (i : Nat) :
      EntersAt (ops ++ [.remove name]) other i ↔ EntersAt ops other i ∧ other ≠ name := by
    rw [entersAt_concat_iff, or_iff_left]
    · refine and_congr_right fun _ => not_congr ⟨fun same => ?_, fun same => same ▸ rfl⟩
      injection same with same
      exact same.symm
    · rintro ⟨-, ⟨v, same⟩, -⟩
      cases same
  refine ⟨fun other => ?_, ?_⟩
  · rw [h.nodup.mem_erase_iff, h.mem_iff, and_comm, ← exists_and_right]
    exact exists_congr fun i => (left other i).symm
  · refine (h.order.sublist List.erase_sublist).imp fun {a b} before i j ha hb => ?_
    exact before i j ((left a i).1 ha).1 ((left b j).1 hb).1

end InOrderOfEntry

theorem perform_inOrderOfEntry (h : InOrderOfEntry ops (Fields.names d)) (op : StoreOp) :
    InOrderOfEntry (ops ++ [op]) (Fields.names (Document.perform op d).2) := by
  rw [names_perform]
  cases op with
  | insert name v =>
    dsimp only
    by_cases there : name ∈ Fields.names d
    · rw [if_pos there]
      refine h.unchanged nofun fun other w same => ?_
      injection same with same
      exact same ▸ there
    · rw [if_neg there]
      exact h.insert_new there v
  | remove name => exact h.remove name
  | _ => exact h.unchanged nofun nofun

theorem run_inOrderOfEntry (ops : List StoreOp) :
    InOrderOfEntry ops (Fields.names (run Document.perform [] ops).2) := by
  induction ops using List.reverseRecOn with
  | nil => exact .start
  | append_singleton ops op ih =>
    rw [run_concat]
    exact perform_inOrderOfEntry ih op

/-- **A document and a map are one store**: from the start, the same operations give the same
answers on both, one by one. The names of the document are all different and stand in the order of
their entry, and the document as a map is the map. -/
theorem run_same (ops : List StoreOp) :
    let onDocument := run Document.perform [] ops
    let onMap := run DocumentMap.perform [] ops
    onDocument.1 = onMap.1 ∧ (Fields.names onDocument.2).Nodup ∧
      Document.toMap onDocument.2 = onMap.2 ∧
        InOrderOfEntry ops (Fields.names onDocument.2) := by
  obtain ⟨answers, alike⟩ := run_alike .empty ops
  exact ⟨answers, alike.distinct, alike.sorted_eq, run_inOrderOfEntry ops⟩

example :
    Fields.names (run Document.perform [] [.insert "z" .null, .insert "a" .null,
      .insert "z" .minKey, .insert "m" .null, .remove "z", .insert "z" .null]).2 =
        ["a", "m", "z"] := by decide

end StoreOp

end Bson
