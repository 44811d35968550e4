import Mathlib.Data.List.Induction
import Bson.Fields

/-!
# The last value of each name

* `Fields.last?`        the value of the last field of a name;
* `Fields.get?_sorted`  merged in the order of their names, fields keep the last value of each name;
* `Fields.sorted_strict`  and the names strictly increase;
* `Fields.sorted_eq_of_perm`  so fields in the order of their names come back from any other order;
* `Fields.mapValues`    the fields with a function at every value (`Fields.last?_mapValues`).
-/

namespace Bson

namespace Fields

variable {α β : Type}

def last? (name : String) : Fields α → Option α
  | [] => none
  | (k, v) :: rest => (last? name rest).or (if k = name then some v else none)

def mapValues (f : α → β) (fs : Fields α) : Fields β := fs.map fun g => (g.1, f g.2)

theorem mapValues_id (fs : Fields α) : mapValues id fs = fs := List.map_id fs

theorem mapValues_mapValues {γ : Type} (g : β → γ) (f : α → β) (fs : Fields α) :
    mapValues g (mapValues f fs) = mapValues (g ∘ f) fs := List.map_map

theorem mapValues_congr {f g : α → β} {fs : Fields α} (h : ∀ e ∈ fs, f e.2 = g e.2) :
    mapValues f fs = mapValues g fs :=
  List.map_congr_left fun e he => congrArg (e.1, ·) (h e he)

theorem forall_mem_mapValues {f : α → β} {fs : Fields α} {p : String × β → Prop} :
    (∀ e ∈ mapValues f fs, p e) ↔ ∀ e ∈ fs, p (e.1, f e.2) := List.forall_mem_map

theorem values_mapValues (f : α → β) (fs : Fields α) :
    (mapValues f fs).map Prod.snd = fs.map fun e => f e.2 := List.map_map

/-! ### names in order -/

instance (fs : Fields α) : Decidable (Sorted fs) := inferInstanceAs (Decidable (List.Pairwise _ fs))

theorem nameBefore_trans {a b c : String} (hab : nameBefore a b) (hbc : nameBefore b c) :
    nameBefore a c := by
  unfold nameBefore at *
  rw [decide_eq_true_eq] at *
  exact List.lt_trans hab hbc

theorem nameBefore_of_ne {a b : String} (hne : a ≠ b) (h : ¬ nameBefore a b) : nameBefore b a := by
  unfold nameBefore at *
  rw [decide_eq_true_eq] at *
  rcases List.le_iff_lt_or_eq.1 (List.not_lt.1 h) with h1 | h1
  · exact h1
  · exact absurd (utf8_inj.1 h1).symm hne

theorem mem_place {name : String} {v : α} {fs : Fields α} {g : String × α}
    (h : g ∈ place name v fs) : g = (name, v) ∨ g ∈ fs := by
  induction fs with
  | nil => exact .inl (List.mem_singleton.1 h)
  | cons f rest ih =>
    rw [place] at h
    by_cases same : f.1 = name
    · rw [if_pos same] at h
      rcases List.mem_cons.1 h with rfl | h1
      · exact .inl (by rw [same])
      · exact .inr (List.mem_cons_of_mem _ h1)
    rw [if_neg same] at h
    by_cases before : nameBefore name f.1
    · rw [if_pos before] at h
      exact List.mem_cons.1 h
    · rw [if_neg before] at h
      rcases List.mem_cons.1 h with rfl | h1
      · exact .inr (List.mem_cons_self ..)
      · exact (ih h1).imp_right (List.mem_cons_of_mem _)

theorem place_strict {name : String} {v : α} {fs : Fields α} (h : Sorted fs) :
    Sorted (place name v fs) := by
  induction fs with
  | nil => exact List.pairwise_singleton _ _
  | cons f rest ih =>
    obtain ⟨first, more⟩ := List.pairwise_cons.1 h
    rw [place]
    by_cases same : f.1 = name
    · rw [if_pos same]
      exact List.pairwise_cons.2 ⟨first, more⟩
    rw [if_neg same]
    by_cases before : nameBefore name f.1
    · rw [if_pos before]
      refine List.pairwise_cons.2 ⟨fun g hg => ?_, h⟩
      rcases List.mem_cons.1 hg with rfl | hg
      · exact before
      · exact nameBefore_trans before (first g hg)
    · rw [if_neg before]
      refine List.pairwise_cons.2 ⟨fun g hg => ?_, ih more⟩
      rcases mem_place hg with rfl | hg
      · exact nameBefore_of_ne (Ne.symm same) before
      · exact first g hg

/-! ### merging in order -/

theorem foldl_place (fs acc : Fields α) (name : String) :
    get? name (fs.foldl (fun acc f => place f.1 f.2 acc) acc) =
      (last? name fs).or (get? name acc) := by
  induction fs generalizing acc with
  | nil => rfl
  | cons f rest ih =>
    rw [List.foldl_cons, ih, get?_place, last?, Option.or_assoc]
    by_cases h : f.1 = name
    · rw [if_pos h, if_pos h, Option.some_or]
    · rw [if_neg h, if_neg h, Option.none_or]

theorem get?_sorted (name : String) (fs : Fields α) : get? name (sorted fs) = last? name fs := by
  rw [sorted, foldl_place, get?_nil, Option.or_none]

theorem sorted_strict (fs : Fields α) : Sorted (sorted fs) := by
  have onto : ∀ fs acc : Fields α, Sorted acc →
      Sorted (fs.foldl (fun acc f => place f.1 f.2 acc) acc) := by
    intro fs
    induction fs with
    | nil => exact fun _ h => h
    | cons f rest ih => exact fun acc h => ih _ (place_strict h)
  exact onto fs [] .nil

theorem mem_sorted {fs : Fields α} {g : String × α} (h : g ∈ sorted fs) : g ∈ fs := by
  induction fs using List.reverseRecOn with
  | nil => exact h
  | append_singleton fs f ih =>
    rw [sorted_concat] at h
    rcases mem_place h with rfl | h
    · exact List.mem_append_right _ (List.mem_singleton.2 rfl)
    · exact List.mem_append_left _ (ih h)

/-! ### fields of different names -/

theorem Sorted.nodup {fs : Fields α} (h : Sorted fs) : (names fs).Nodup := by
  refine List.pairwise_map.2 (h.imp fun {f g} before same => ?_)
  rw [same] at before
  exact List.lt_irrefl _ (of_decide_eq_true before)

theorem place_perm {name : String} {v : α} {fs : Fields α} (h : name ∉ names fs) :
    (place name v fs).Perm ((name, v) :: fs) := by
  induction fs with
  | nil => exact .refl _
  | cons f rest ih =>
    obtain ⟨other, more⟩ := not_or.1 (mt List.mem_cons.2 h)
    rw [place, if_neg (Ne.symm other)]
    by_cases before : nameBefore name f.1
    · rw [if_pos before]
    · rw [if_neg before]
      exact ((ih more).cons f).trans (.swap ..)

theorem sorted_perm {fs : Fields α} (h : (names fs).Nodup) : (sorted fs).Perm fs := by
  -- from the end, where the field that is placed last stands
  induction fs using List.reverseRecOn with
  | nil => exact .refl _
  | append_singleton fs f ih =>
    have apart : names (fs ++ [f]) = names fs ++ [f.1] := List.map_append
    rw [apart] at h
    obtain ⟨front, -, new⟩ := List.nodup_append.1 h
    have same := ih front
    have missing : f.1 ∉ names (sorted fs) := by
      intro there
      have before : f.1 ∈ names fs := (same.map Prod.fst).mem_iff.1 there
      exact new _ before _ (List.mem_singleton.2 rfl) rfl
    rw [sorted_concat]
    exact (place_perm missing).trans ((same.cons f).trans (List.perm_append_singleton f fs).symm)

/-- fields in the order of their names, walked in any order, are merged to what they were -/
theorem sorted_eq_of_perm {fs gs : Fields α} (h : Sorted fs) (p : gs.Perm fs) : sorted gs = fs := by
  have distinct : (names gs).Nodup := (p.map Prod.fst).nodup_iff.2 h.nodup
  refine List.Perm.eq_of_pairwise ?_ (sorted_strict gs) h ((sorted_perm distinct).trans p)
  intro f g _ _ hfg hgf
  exact absurd (of_decide_eq_true (nameBefore_trans hfg hgf)) (List.lt_irrefl _)

/-! ### functions at the values -/

theorem last?_mapValues (f : α → β) (name : String) (fs : Fields α) :
    last? name (mapValues f fs) = (last? name fs).map f := by
  induction fs with
  | nil => rfl
  | cons g rest ih =>
    show last? name ((g.1, f g.2) :: mapValues f rest) = _
    rw [last?, last?, ih]
    by_cases h : g.1 = name
    · rw [if_pos h, if_pos h]
      cases last? name rest <;> rfl
    · rw [if_neg h, if_neg h, Option.or_none, Option.or_none]

end Fields

end Bson
