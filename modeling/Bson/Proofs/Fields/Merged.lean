import Mathlib.Algebra.Order.BigOperators.Group.List
import Mathlib.Algebra.Order.Group.Nat
import Mathlib.Algebra.Ring.Nat
import Mathlib.Data.List.Nodup
import Mathlib.Data.List.Perm.Subperm
import Bson.Proofs.Fields.Sorted

/-!
# Repeated names merged

* `Fields.last?_eq_some_iff`  the last value of a name is that behind which it does not stand again;
* `Fields.lastAtFirst`  each name where it first stands, with the value that stands last;
* `Fields.merge_eq`     field by field, that is what comes of inserting the fields one after
                        another: the names in the order of their first places (`names_merge`), and
                        the last value of each (`get?_merge`);
* `Fields.sum_lastAtFirst_le`  merged fields weigh no more than the fields themselves;
* `Fields.merge_of_nodup`  fields of different names stay as they are, and only they
                        (`Fields.lastAtFirst_mapValues_eq_self_iff`).
-/

namespace Bson

namespace Fields

variable {α β : Type}

/-- each name once, where it first stands, with the value that stands last -/
def lastAtFirst (fs : Fields α) : Fields α :=
  (names fs).eraseDups.filterMap fun name => (last? name fs).map fun v => (name, v)

theorem names_concat (fs : Fields α) (f : String × α) : names (fs ++ [f]) = names fs ++ [f.1] :=
  List.map_append

theorem last?_concat (key name : String) (v : α) (fs : Fields α) :
    last? key (fs ++ [(name, v)]) = if name = key then some v else last? key fs := by
  induction fs with
  | nil => rfl
  | cons f rest ih =>
    rw [List.cons_append, last?, ih, last?]
    by_cases same : name = key
    · rw [if_pos same, if_pos same, Option.some_or]
    · rw [if_neg same, if_neg same]

theorem last?_eq_get?_reverse (name : String) (fs : Fields α) :
    last? name fs = get? name fs.reverse := by
  induction fs using List.reverseRecOn with
  | nil => rfl
  | append_singleton fs f ih =>
    rw [last?_concat, ih, List.reverse_append, List.reverse_singleton, List.singleton_append, get?]

theorem last?_eq_some_iff {name : String} {v : α} {fs : Fields α} :
    last? name fs = some v ↔
      ∃ before after, fs = before ++ (name, v) :: after ∧ name ∉ names after := by
  have reversed (before : Fields α) : names before.reverse = (names before).reverse :=
    List.map_reverse
  rw [last?_eq_get?_reverse, get?_eq_some_iff]
  constructor
  · rintro ⟨before, after, same, first⟩
    refine ⟨after.reverse, before.reverse, ?_, ?_⟩
    · rw [← List.reverse_inj, same]
      simp
    · rwa [reversed, List.mem_reverse]
  · rintro ⟨before, after, rfl, last⟩
    refine ⟨after.reverse, before.reverse, by simp, ?_⟩
    rwa [reversed, List.mem_reverse]

theorem names_mapValues (f : α → β) (fs : Fields α) : names (mapValues f fs) = names fs :=
  List.map_map

/-! ### field by field -/

theorem get?_mapValues (f : α → β) (name : String) (fs : Fields α) :
    get? name (mapValues f fs) = (get? name fs).map f := by
  induction fs with
  | nil => rfl
  | cons g rest ih =>
    show (if g.1 = name then some (f g.2) else get? name (mapValues f rest)) = _
    rw [ih, get?]
    split <;> rfl

theorem get?_eq_none_iff {name : String} {fs : Fields α} : get? name fs = none ↔ name ∉ names fs := by
  induction fs with
  | nil => exact ⟨fun _ => nofun, fun _ => rfl⟩
  | cons f rest ih =>
    have members : name ∈ names (f :: rest) ↔ name = f.1 ∨ name ∈ names rest := List.mem_cons
    rw [get?, members]
    by_cases same : f.1 = name
    · simp [same]
    · rw [if_neg same, ih]
      simp [Ne.symm same]

theorem get?_merge (key : String) (fs : Fields α) : get? key (merge fs) = last? key fs := by
  induction fs using List.reverseRecOn with
  | nil => rfl
  | append_singleton fs f ih => rw [merge_concat, get?_insert, last?_concat, ih]

theorem names_merge (fs : Fields α) : names (merge fs) = (names fs).eraseDups := by
  induction fs using List.reverseRecOn with
  | nil => rfl
  | append_singleton fs f ih =>
    rw [merge_concat, names_insert, ih, names_concat, List.eraseDups_append]
    simp only [List.mem_eraseDups]
    by_cases there : f.1 ∈ names fs
    · have old : [f.1].removeAll (names fs) = [] := by simp [List.removeAll, there]
      rw [if_pos there, old]
      exact (List.append_nil _).symm
    · have new : [f.1].removeAll (names fs) = [f.1] := by simp [List.removeAll, there]
      rw [if_neg there, new]
      rfl

theorem nodup_merge (fs : Fields α) : (names (merge fs)).Nodup := by
  induction fs using List.reverseRecOn with
  | nil => exact .nil
  | append_singleton fs f ih =>
    rw [merge_concat, names_insert]
    by_cases there : f.1 ∈ names (merge fs)
    · rwa [if_pos there]
    · rw [if_neg there]
      exact List.concat_eq_append ▸ ih.concat there

/-- fields of different names are found again, name by name -/
theorem eq_of_nodup {fs : Fields α} (h : (names fs).Nodup) :
    fs = (names fs).filterMap fun name => (get? name fs).map fun v => (name, v) := by
  induction fs with
  | nil => rfl
  | cons f rest ih =>
    obtain ⟨new, more⟩ := List.nodup_cons.1 h
    have behind : ∀ name ∈ names rest, get? name (f :: rest) = get? name rest := by
      intro name there
      refine if_neg ?_
      rintro rfl
      exact new there
    have first : get? f.1 (f :: rest) = some f.2 := if_pos rfl
    show f :: rest = (f.1 :: names rest).filterMap _
    rw [List.filterMap_cons, first]
    exact congrArg (f :: ·) ((ih more).trans (List.filterMap_congr fun name there =>
      congrArg _ (behind name there).symm))

theorem merge_eq (fs : Fields α) : merge fs = lastAtFirst fs := by
  rw [eq_of_nodup (nodup_merge fs), names_merge]
  exact List.filterMap_congr fun name _ => by rw [get?_merge]

theorem mem_of_last? {name : String} {v : α} {fs : Fields α} (h : last? name fs = some v) :
    (name, v) ∈ fs := by
  obtain ⟨before, after, rfl, -⟩ := last?_eq_some_iff.1 h
  exact List.mem_append_right before (List.mem_cons_self ..)

theorem last?_eq_get? {name : String} {fs : Fields α} (once : (names fs).count name ≤ 1) :
    last? name fs = get? name fs := by
  induction fs with
  | nil => rfl
  | cons f rest ih =>
    have count : (names (f :: rest)).count name =
        (names rest).count name + if f.1 == name then 1 else 0 := List.count_cons
    rw [count] at once
    rw [last?, get?]
    by_cases same : f.1 = name
    · rw [if_pos (beq_iff_eq.2 same)] at once
      have behind : last? name rest = none := by
        refine Option.eq_none_iff_forall_ne_some.2 fun v found => ?_
        have there : name ∈ names rest := List.mem_map_of_mem (mem_of_last? found)
        have := List.count_pos_iff.2 there
        omega
      rw [behind, Option.none_or, if_pos same, if_pos same]
    · rw [if_neg same, if_neg same, Option.or_none]
      exact ih (by omega)

theorem mem_merge {fs : Fields α} {f : String × α} (h : f ∈ merge fs) : f ∈ fs := by
  rw [merge_eq] at h
  obtain ⟨name, -, found⟩ := List.mem_filterMap.1 h
  obtain ⟨v, last, rfl⟩ := Option.map_eq_some_iff.1 found
  exact mem_of_last? last

theorem mem_lastAtFirst {fs : Fields α} {f : String × α} (h : f ∈ lastAtFirst fs) : f ∈ fs := by
  rw [← merge_eq] at h
  exact mem_merge h

theorem nodup_lastAtFirst (fs : Fields α) : (names (lastAtFirst fs)).Nodup := by
  rw [← merge_eq]
  exact nodup_merge fs

/-- merged fields weigh no more than the fields themselves: they are some of them, each once -/
theorem sum_lastAtFirst_le (weight : String × α → Nat) (fs : Fields α) :
    ((lastAtFirst fs).map weight).sum ≤ (fs.map weight).sum := by
  have once : (lastAtFirst fs).Nodup := .of_map _ (nodup_lastAtFirst fs)
  obtain ⟨gs, order, part⟩ := List.subperm_of_subset once fun _ => mem_lastAtFirst
  rw [← (order.map weight).sum_eq]
  exact (part.map weight).sum_le_sum fun _ _ => Nat.zero_le _

/-! ### fields of different names -/

theorem insert_of_not_mem {name : String} {v : α} {fs : Fields α} (h : name ∉ names fs) :
    insert name v fs = fs ++ [(name, v)] := by
  induction fs with
  | nil => rfl
  | cons f rest ih =>
    obtain ⟨other, more⟩ := not_or.1 (mt List.mem_cons.2 h)
    rw [insert, if_neg (Ne.symm other), ih more]
    rfl

theorem merge_of_nodup {fs : Fields α} (h : (names fs).Nodup) : merge fs = fs := by
  induction fs using List.reverseRecOn with
  | nil => rfl
  | append_singleton fs f ih =>
    rw [names_concat] at h
    obtain ⟨front, -, new⟩ := List.nodup_append.1 h
    have missing : f.1 ∉ names fs := fun there => new _ there _ (List.mem_singleton.2 rfl) rfl
    rw [merge_concat, ih front, insert_of_not_mem missing]

theorem mapValues_eq_self_iff {f : α → α} {fs : Fields α} :
    fs.mapValues f = fs ↔ ∀ e ∈ fs, f e.2 = e.2 := by
  constructor
  · intro same e he
    have pairs := List.map_inj_left.1 (same.trans (mapValues_id fs).symm) e he
    exact congrArg Prod.snd pairs
  · exact fun same => (mapValues_congr same).trans (mapValues_id fs)

theorem lastAtFirst_mapValues_eq_self_iff {f : α → α} {fs : Fields α} :
    lastAtFirst (fs.mapValues f) = fs ↔ (names fs).Nodup ∧ ∀ e ∈ fs, f e.2 = e.2 := by
  rw [← mapValues_eq_self_iff]
  have once (distinct : (names fs).Nodup) :
      lastAtFirst (fs.mapValues f) = fs.mapValues f := by
    rw [← merge_eq, merge_of_nodup]
    rwa [names_mapValues]
  constructor
  · intro same
    have distinct : (names fs).Nodup := same ▸ nodup_lastAtFirst (fs.mapValues f)
    exact ⟨distinct, (once distinct).symm.trans same⟩
  · intro hx
    obtain ⟨distinct, same⟩ := hx
    rw [once distinct, same]

theorem exists_perm_mapValues {f : α → β} {fs : Fields α} {gs : Fields β}
    (h : gs.Perm (mapValues f fs)) : ∃ hs : Fields α, hs.Perm fs ∧ gs = mapValues f hs := by
  have walks := congrFun₂ (List.eq_map_comp_perm fun e : String × α => (e.1, f e.2)) gs fs
  obtain ⟨hs, same, order⟩ := walks.mpr h
  exact ⟨hs, order, same⟩

end Fields

end Bson
