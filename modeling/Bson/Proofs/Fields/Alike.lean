import Bson.Proofs.Fields.Merged

/-!
# Fields in two orders

Fields of different names, once in the order in which they were added and once in the order of their
names (`Fields.Alike`), are found alike, and stay alike when the same operation is applied to both:

* `Alike.insert`, `Alike.set`, `Alike.erase`  the operations, on one list at the end and on the
                        other at the place of the name;
* `Alike.sorted_eq`, `Alike.length_eq`  the second list is the first one sorted, and as long;
* `Fields.eq_of_get?_eq`  fields in the order of their names are known by what is found in them.
-/

namespace Bson

namespace Fields

variable {α : Type}

/-! ### names and look-ups of the operations -/

theorem names_set (name : String) (v : α) (fs : Fields α) : names (set name v fs) = names fs := by
  induction fs with
  | nil => rfl
  | cons f rest ih =>
    rw [set]
    by_cases same : f.1 = name
    · rw [if_pos same]
      rfl
    · rw [if_neg same]
      exact congrArg (f.1 :: ·) ih

theorem names_erase (name : String) (fs : Fields α) :
    names (erase name fs) = (names fs).erase name := by
  induction fs with
  | nil => rfl
  | cons f rest ih =>
    show _ = (f.1 :: names rest).erase name
    rw [erase, List.erase_cons]
    by_cases same : f.1 = name
    · rw [if_pos same, if_pos (beq_iff_eq.2 same)]
    · rw [if_neg same, if_neg (mt beq_iff_eq.1 same), ← ih]
      rfl

theorem erase_sublist (name : String) (fs : Fields α) : (erase name fs).Sublist fs := by
  induction fs with
  | nil => exact .refl _
  | cons f rest ih =>
    rw [erase]
    split
    · exact List.sublist_cons_self ..
    · exact ih.cons_cons f

theorem get?_set (key name : String) (v : α) (fs : Fields α) :
    get? key (set name v fs) =
      if name = key then (get? key fs).map fun _ => v else get? key fs := by
  induction fs with
  | nil => exact (ite_self _).symm
  | cons f rest ih =>
    rw [set]
    by_cases same : f.1 = name
    · rw [if_pos same, get?, get?, same]
      by_cases found : name = key
      · rw [if_pos found, if_pos found, if_pos found]
        rfl
      · rw [if_neg found, if_neg found, if_neg found]
    · rw [if_neg same, get?, ih, get?]
      by_cases found : f.1 = key
      · rw [if_pos found, if_pos found, if_neg fun other => same (found.trans other.symm)]
      · rw [if_neg found, if_neg found]

theorem get?_erase (key name : String) {fs : Fields α} (distinct : (names fs).Nodup) :
    get? key (erase name fs) = if name = key then none else get? key fs := by
  by_cases same : name = key
  · rw [if_pos same, get?_eq_none_iff, names_erase, ← same]
    exact distinct.not_mem_erase
  · rw [if_neg same]
    -- the other names are found where they were, whether names are repeated or not
    clear distinct
    induction fs with
    | nil => rfl
    | cons f rest ih =>
      rw [erase, get?]
      by_cases here : f.1 = name
      · rw [if_pos here, if_neg fun found => same (here.symm.trans found)]
      · rw [if_neg here, get?, ih]

theorem get?_eq_some_iff_mem {name : String} {v : α} {fs : Fields α} (distinct : (names fs).Nodup) :
    get? name fs = some v ↔ (name, v) ∈ fs := by
  induction fs with
  | nil => exact ⟨nofun, nofun⟩
  | cons f rest ih =>
    obtain ⟨new, more⟩ := List.nodup_cons.1 distinct
    rw [get?, List.mem_cons]
    by_cases here : f.1 = name
    · rw [if_pos here, Option.some_inj, Prod.ext_iff]
      refine ⟨fun value => .inl ⟨here.symm, value.symm⟩, ?_⟩
      rintro (⟨-, value⟩ | later)
      · exact value.symm
      · exact absurd (here ▸ List.mem_map_of_mem later) new
    · rw [if_neg here, ih more, Prod.ext_iff]
      exact (or_iff_right fun first => here first.1.symm).symm

/-! ### fields in the order of their names -/

/-- fields in the order of their names are known by what is found in them -/
theorem eq_of_get?_eq {fs gs : Fields α} (hf : Sorted fs) (hg : Sorted gs)
    (same : ∀ name, get? name fs = get? name gs) : fs = gs := by
  have order : gs.Perm fs := by
    refine (List.perm_ext_iff_of_nodup hg.nodup.of_map hf.nodup.of_map).2 fun f => ?_
    rw [← get?_eq_some_iff_mem hf.nodup, ← get?_eq_some_iff_mem hg.nodup, same]
  rw [← sorted_eq_of_perm hf order, sorted_eq_of_perm hg (.refl gs)]

/-- `fs` has every name once, and `gs` has the same fields in the order of their names -/
structure Alike (fs gs : Fields α) : Prop where
  distinct : (names fs).Nodup
  ordered : Sorted gs
  get?_eq : ∀ name, get? name fs = get? name gs

namespace Alike

theorem empty : Alike ([] : Fields α) [] := ⟨.nil, .nil, fun _ => rfl⟩

variable {fs gs : Fields α}

theorem insert (h : Alike fs gs) (name : String) (v : α) :
    Alike (fs.insert name v) (gs.place name v) where
  distinct := by
    rw [names_insert]
    by_cases there : name ∈ names fs
    · rw [if_pos there]
      exact h.distinct
    · rw [if_neg there, ← List.concat_eq_append]
      exact h.distinct.concat there
  ordered := place_strict h.ordered
  get?_eq key := by rw [get?_insert, get?_place, h.get?_eq]

theorem set (h : Alike fs gs) (name : String) (v : α) : Alike (fs.set name v) (gs.set name v) where
  distinct := by
    rw [names_set]
    exact h.distinct
  ordered := by
    have names' : (names gs).Pairwise fun a b => nameBefore a b := List.pairwise_map.2 h.ordered
    rw [← names_set name v gs] at names'
    exact List.pairwise_map.1 names'
  get?_eq key := by rw [get?_set, get?_set, h.get?_eq]

theorem erase (h : Alike fs gs) (name : String) : Alike (fs.erase name) (gs.erase name) where
  distinct := by
    rw [names_erase]
    exact h.distinct.erase name
  ordered := h.ordered.sublist (erase_sublist name gs)
  get?_eq key := by rw [get?_erase _ _ h.distinct, get?_erase _ _ h.ordered.nodup, h.get?_eq]

theorem sorted_eq (h : Alike fs gs) : sorted fs = gs := by
  refine eq_of_get?_eq (sorted_strict fs) h.ordered fun name => ?_
  rw [get?_sorted, ← get?_merge, merge_of_nodup h.distinct, h.get?_eq]

theorem length_eq (h : Alike fs gs) : fs.length = gs.length := by
  rw [← h.sorted_eq, (sorted_perm h.distinct).length_eq]

theorem contains_eq (h : Alike fs gs) (name : String) : fs.contains name = gs.contains name :=
  congrArg Option.isSome (h.get?_eq name)

end Alike

end Fields

end Bson
