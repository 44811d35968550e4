import Bson.Proofs.Fields.Sorted
import Bson.Wire.Decode

/-!
# The order of array items

* `ArrayOrder.le_trans`, `ArrayOrder.le_total`   every two names can be compared, by number or by
                        their bytes;
* `ArrayOrder.Arranged` what an array makes of its fields, said without an algorithm: the same
                        fields, in the order of their names, those of equal rank as they were
                        written;
* `ArrayOrder.sort_eq_iff`  there is exactly one such arrangement, and `ArrayOrder.sort` gives its
                        values;
* `ArrayOrder.sort_mapValues`  sorting does not look at the values.
-/

namespace Bson

namespace ArrayOrder

/-! ### comparing names -/

theorem nameBefore_iff {a b : String} : (!nameBefore b a) = true ↔ utf8 a ≤ utf8 b := by
  simp [nameBefore]

theorem numericLE_trans {a b c : String} (hab : numericLE a b) (hbc : numericLE b c) :
    numericLE a c := by
  unfold numericLE at *
  cases ha : arrayIndex? a <;> cases hb : arrayIndex? b <;> cases hc : arrayIndex? c <;>
    simp only [ha, hb, hc, decide_eq_true_eq, nameBefore_iff, Bool.false_eq_true] at *
  · exact List.le_trans hab hbc
  · omega

theorem numericLE_total (a b : String) : numericLE a b ∨ numericLE b a := by
  unfold numericLE
  cases ha : arrayIndex? a <;> cases hb : arrayIndex? b <;>
    simp only [decide_eq_true_eq, nameBefore_iff, Bool.false_eq_true, or_false, or_true]
  · exact List.le_total _ _
  · omega

theorem le_trans {order : ArrayOrder} {a b c : String} (hab : order.le a b) (hbc : order.le b c) :
    order.le a c := by
  cases order with
  | numeric => exact numericLE_trans hab hbc
  | lexicographic =>
    exact nameBefore_iff.2 (List.le_trans (nameBefore_iff.1 hab) (nameBefore_iff.1 hbc))

theorem le_total (order : ArrayOrder) (a b : String) : order.le a b ∨ order.le b a := by
  cases order with
  | numeric => exact numericLE_total a b
  | lexicographic =>
    exact (List.le_total (utf8 a) (utf8 b)).imp nameBefore_iff.2 nameBefore_iff.2

theorem le_refl (order : ArrayOrder) (a : String) : order.le a a := (order.le_total a a).elim id id

/-- whether a field has the rank of a name -/
def ranks (order : ArrayOrder) (name : String) (f : String × Value) : Bool :=
  order.le name f.1 && order.le f.1 name

theorem ranks_self (order : ArrayOrder) (f : String × Value) : order.ranks f.1 f := by
  simp [ranks, order.le_refl]

/-! ### arrangements -/

/-- `gs` holds the fields of `fs` in the order of their names, and fields of equal rank as they
stand in `fs` -/
structure Arranged (order : ArrayOrder) (fs gs : Fields Value) : Prop where
  perm : gs.Perm fs
  ordered : gs.Pairwise fun f g => order.le f.1 g.1
  stable : ∀ name, gs.filter (order.ranks name) = fs.filter (order.ranks name)

theorem Arranged.of_ordered {order : ArrayOrder} {fs : Fields Value}
    (h : fs.Pairwise fun f g => order.le f.1 g.1) : order.Arranged fs fs :=
  ⟨.refl _, h, fun _ => rfl⟩

/-- fields in order are determined by what stands at each rank -/
theorem eq_of_filter_ranks {order : ArrayOrder} {gs hs : Fields Value}
    (hg : gs.Pairwise fun f g => order.le f.1 g.1) (hh : hs.Pairwise fun f g => order.le f.1 g.1)
    (h : ∀ name, gs.filter (order.ranks name) = hs.filter (order.ranks name)) :
    gs = hs := by
  induction gs generalizing hs with
  | nil =>
    cases hs with
    | nil => rfl
    | cons k hs => exact absurd (h k.1) (by simp [order.ranks_self])
  | cons g gs ih =>
    cases hs with
    | nil => exact absurd (h g.1) (by simp [order.ranks_self])
    | cons k hs =>
      -- each of the two heads occurs in the other list, so neither ranks above the other
      have hgk : order.le g.1 k.1 := by
        have h1 : k ∈ (g :: gs).filter (order.ranks k.1) := by
          rw [h]; simp [order.ranks_self]
        rcases List.mem_cons.1 (List.mem_filter.1 h1).1 with rfl | h2
        · exact order.le_refl _
        · exact List.rel_of_pairwise_cons hg h2
      have hkg : order.le k.1 g.1 := by
        have h1 : g ∈ (k :: hs).filter (order.ranks g.1) := by
          rw [← h]; simp [order.ranks_self]
        rcases List.mem_cons.1 (List.mem_filter.1 h1).1 with rfl | h2
        · exact order.le_refl _
        · exact List.rel_of_pairwise_cons hh h2
      have head := h g.1
      rw [List.filter_cons_of_pos (order.ranks_self g),
        List.filter_cons_of_pos (by simp [ranks, hgk, hkg])] at head
      obtain ⟨rfl, -⟩ := List.cons.inj head
      have tail : ∀ name, gs.filter (order.ranks name) = hs.filter (order.ranks name) := by
        intro name
        have h1 := h name
        by_cases hn : order.ranks name g
        · rw [List.filter_cons_of_pos hn, List.filter_cons_of_pos hn] at h1
          exact (List.cons.inj h1).2
        · rw [List.filter_cons_of_neg hn, List.filter_cons_of_neg hn] at h1
          exact h1
      rw [ih hg.of_cons hh.of_cons tail]

theorem Arranged.unique {order : ArrayOrder} {fs gs hs : Fields Value} (hg : order.Arranged fs gs)
    (hh : order.Arranged fs hs) : gs = hs :=
  eq_of_filter_ranks hg.ordered hh.ordered fun name => (hg.stable name).trans (hh.stable name).symm

/-! ### sorting -/

/-- merge sort arranges: a run of one rank is a sublist in order, which the sort keeps as it is -/
theorem arranged_mergeSort (order : ArrayOrder) (fs : Fields Value) :
    order.Arranged fs (fs.mergeSort fun f g => order.le f.1 g.1) := by
  have trans : ∀ f g h : String × Value, order.le f.1 g.1 → order.le g.1 h.1 → order.le f.1 h.1 :=
    fun _ _ _ => le_trans
  have total : ∀ f g : String × Value, (order.le f.1 g.1 || order.le g.1 f.1) = true := by
    intro f g
    rw [Bool.or_eq_true]
    exact order.le_total f.1 g.1
  have perm := List.mergeSort_perm fs fun f g => order.le f.1 g.1
  refine ⟨perm, List.pairwise_mergeSort trans total fs, fun name => ?_⟩
  have run : (fs.filter (order.ranks name)).Pairwise fun f g => order.le f.1 g.1 := by
    refine List.pairwise_of_forall_mem_list fun f hf g hg => ?_
    have h1 := (List.mem_filter.1 hf).2
    have h2 := (List.mem_filter.1 hg).2
    simp only [ranks, Bool.and_eq_true] at h1 h2
    exact le_trans h1.2 h2.1
  have kept := (List.sublist_mergeSort trans total run List.filter_sublist).filter
    (order.ranks name)
  rw [List.filter_filter] at kept
  simp only [Bool.and_self] at kept
  exact (kept.eq_of_length (perm.filter _).length_eq.symm).symm

theorem sort_eq_iff {order : ArrayOrder} {fs : Fields Value} {items : List Value} :
    order.sort fs = items ↔ ∃ gs, order.Arranged fs gs ∧ items = gs.map Prod.snd := by
  constructor
  · rintro rfl
    exact ⟨_, arranged_mergeSort order fs, rfl⟩
  · intro hx
    obtain ⟨gs, hgs, rfl⟩ := hx
    rw [hgs.unique (arranged_mergeSort order fs), sort]

theorem sort_mapValues (order : ArrayOrder) (f : Value → Value) (fs : Fields Value) :
    order.sort (fs.mapValues f) = (order.sort fs).map f := by
  unfold sort Fields.mapValues
  rw [← List.map_mergeSort (f := fun g : String × Value => (g.1, f g.2)) (fun _ _ _ _ => rfl),
    List.map_map, List.map_map]
  rfl

end ArrayOrder

end Bson
