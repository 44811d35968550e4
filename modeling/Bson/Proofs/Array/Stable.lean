import Mathlib.Data.List.Pairwise
import Bson.Proofs.Array.Order

/-!
# The order of array items without a comparison

What `ArrayOrder.le` comes to, said of names and numbers.

* `ArrayOrder.SameRank` names that are the same, or spell the same number where numbers are looked
                        at (`sameRank_iff`);
* `ArrayOrder.Ordered`  fields whose names are in order: numbers first, by number, the other names
                        after them by their bytes; or all by their bytes (`ordered_iff`);
* `ArrayOrder.StablySorted`  the same fields in order, where every run of fields of equal rank
                        stands as it stood before;
* `ArrayOrder.stablySorted_iff`  which is another way to say `ArrayOrder.Arranged`;
* `ArrayOrder.StablySorted.eq_of_perm`  fields of different ranks are sorted into one list,
                        whatever their order was.
-/

namespace Bson

namespace ArrayOrder

/-! ### ranks -/

/-- the names are the same, or spell the same number where numbers are looked at -/
def SameRank : ArrayOrder → String → String → Prop
  | .numeric, a, b => a = b ∨ ∃ n, arrayIndex? a = some n ∧ arrayIndex? b = some n
  | .lexicographic, a, b => a = b

theorem utf8_eq_of_le {a b : String} (hab : utf8 a ≤ utf8 b) (hba : utf8 b ≤ utf8 a) : a = b :=
  utf8_inj.1 (List.le_antisymm hab hba)

theorem sameRank_iff {order : ArrayOrder} {a b : String} :
    order.SameRank a b ↔ order.le a b ∧ order.le b a := by
  constructor
  · intro same
    cases order with
    | lexicographic =>
      obtain rfl : a = b := same
      exact ⟨le_refl _ a, le_refl _ a⟩
    | numeric =>
      rcases same with rfl | ⟨n, ha, hb⟩
      · exact ⟨le_refl _ a, le_refl _ a⟩
      · simp [le, numericLE, ha, hb]
  · rintro ⟨hab, hba⟩
    cases order with
    | lexicographic => exact utf8_eq_of_le (nameBefore_iff.1 hab) (nameBefore_iff.1 hba)
    | numeric =>
      unfold le numericLE at hab hba
      cases ha : arrayIndex? a <;> cases hb : arrayIndex? b <;>
        simp only [ha, hb, decide_eq_true_eq, nameBefore_iff, Bool.false_eq_true] at hab hba
      · exact .inl (utf8_eq_of_le hab hba)
      · rename_i m n
        obtain rfl : m = n := Nat.le_antisymm hab hba
        exact .inr ⟨m, ha, hb⟩

theorem ranks_iff {order : ArrayOrder} {name : String} {f : String × Value} :
    order.ranks name f ↔ order.SameRank name f.1 := by
  rw [ranks, Bool.and_eq_true, sameRank_iff]

theorem SameRank.symm {order : ArrayOrder} {a b : String} (h : order.SameRank a b) :
    order.SameRank b a :=
  sameRank_iff.2 (sameRank_iff.1 h).symm

theorem SameRank.trans {order : ArrayOrder} {a b c : String} (hab : order.SameRank a b)
    (hbc : order.SameRank b c) : order.SameRank a c := by
  obtain ⟨h1, h2⟩ := sameRank_iff.1 hab
  obtain ⟨h3, h4⟩ := sameRank_iff.1 hbc
  exact sameRank_iff.2 ⟨le_trans h1 h3, le_trans h4 h2⟩

/-! ### fields in order -/

/-- the names are in order: numbers first, by number, and the other names after them by their
bytes, or all names by their bytes -/
def Ordered : ArrayOrder → Fields Value → Prop
  | .numeric, gs => ∃ numbers others, gs = numbers ++ others ∧
      (∀ f ∈ numbers, ∃ n, arrayIndex? f.1 = some n) ∧ (∀ f ∈ others, arrayIndex? f.1 = none) ∧
      (numbers.Pairwise fun f g =>
        ∀ m n, arrayIndex? f.1 = some m → arrayIndex? g.1 = some n → m ≤ n) ∧
      others.Pairwise fun f g => utf8 f.1 ≤ utf8 g.1
  | .lexicographic, gs => gs.Pairwise fun f g => utf8 f.1 ≤ utf8 g.1

theorem numericLE_of_some {a b : String} {m : Nat} (ha : arrayIndex? a = some m) :
    numericLE a b ↔ ∀ n, arrayIndex? b = some n → m ≤ n := by
  unfold numericLE
  cases hb : arrayIndex? b <;> simp [ha]

theorem numericLE_of_none {a b : String} (ha : arrayIndex? a = none) :
    numericLE a b ↔ arrayIndex? b = none ∧ utf8 a ≤ utf8 b := by
  unfold numericLE
  cases hb : arrayIndex? b <;> simp [ha, nameBefore]

theorem ordered_numeric_iff {gs : Fields Value} :
    Ordered .numeric gs ↔ gs.Pairwise fun f g => numericLE f.1 g.1 := by
  constructor
  · rintro ⟨numbers, others, rfl, numeric, named, byNumber, byName⟩
    refine List.pairwise_append.2 ⟨?_, ?_, fun f hf g hg => ?_⟩
    · refine byNumber.imp_of_mem fun {f g} hf _ h => ?_
      obtain ⟨m, hm⟩ := numeric f hf
      exact (numericLE_of_some hm).2 fun n hn => h m n hm hn
    · exact byName.imp_of_mem fun {f g} hf hg h => (numericLE_of_none (named f hf)).2 ⟨named g hg, h⟩
    · obtain ⟨m, hm⟩ := numeric f hf
      refine (numericLE_of_some hm).2 fun n hn => ?_
      rw [named g hg] at hn
      cases hn
  · intro h
    induction gs with
    | nil => exact ⟨[], [], rfl, nofun, nofun, .nil, .nil⟩
    | cons f rest ih =>
      obtain ⟨first, more⟩ := List.pairwise_cons.1 h
      obtain ⟨numbers, others, rfl, numeric, named, byNumber, byName⟩ := ih more
      cases hf : arrayIndex? f.1 with
      | some m =>
        refine ⟨f :: numbers, others, rfl, List.forall_mem_cons.2 ⟨⟨m, hf⟩, numeric⟩, named,
          List.pairwise_cons.2 ⟨fun g hg m' n hm' hn => ?_, byNumber⟩, byName⟩
        rw [hf] at hm'
        cases hm'
        exact (numericLE_of_some hf).1 (first g (List.mem_append_left _ hg)) n hn
      | none =>
        -- behind a name that is no number none is one
        have after (g) (hg : g ∈ numbers ++ others) := (numericLE_of_none hf).1 (first g hg)
        obtain rfl : numbers = [] := by
          refine List.eq_nil_iff_forall_not_mem.2 fun g hg => ?_
          obtain ⟨n, hn⟩ := numeric g hg
          rw [(after g (List.mem_append_left _ hg)).1] at hn
          cases hn
        exact ⟨[], f :: others, rfl, nofun, List.forall_mem_cons.2 ⟨hf, named⟩, .nil,
          List.pairwise_cons.2 ⟨fun g hg => (after g hg).2, byName⟩⟩

theorem ordered_iff {order : ArrayOrder} {gs : Fields Value} :
    order.Ordered gs ↔ gs.Pairwise fun f g => order.le f.1 g.1 := by
  cases order with
  | numeric => exact ordered_numeric_iff
  | lexicographic => exact List.Pairwise.iff fun f g => nameBefore_iff.symm

/-! ### stable sorting -/

/-- `gs` holds the fields of `fs` in order, and every run of fields of equal rank stands in it as it
stands in `fs` -/
structure StablySorted (order : ArrayOrder) (fs gs : Fields Value) : Prop where
  perm : gs.Perm fs
  ordered : order.Ordered gs
  stable : ∀ run : Fields Value, run.Sublist fs →
    (run.Pairwise fun f g => order.SameRank f.1 g.1) → run.Sublist gs

theorem filter_ranks_run {order : ArrayOrder} {f : String × Value} {run : Fields Value}
    (same : (f :: run).Pairwise fun f g => order.SameRank f.1 g.1) :
    (f :: run).filter (order.ranks f.1) = f :: run := by
  refine List.filter_eq_self.2 (List.forall_mem_cons.2 ⟨order.ranks_self f, fun g hg => ?_⟩)
  exact ranks_iff.2 (List.rel_of_pairwise_cons same hg)

theorem stablySorted_iff {order : ArrayOrder} {fs gs : Fields Value} :
    order.StablySorted fs gs ↔ order.Arranged fs gs := by
  constructor
  · intro h
    refine ⟨h.perm, ordered_iff.1 h.ordered, fun name => ?_⟩
    have same : (fs.filter (order.ranks name)).Pairwise fun f g => order.SameRank f.1 g.1 := by
      refine List.pairwise_of_forall_mem_list fun f hf g hg => ?_
      have first := ranks_iff.1 (List.mem_filter.1 hf).2
      exact first.symm.trans (ranks_iff.1 (List.mem_filter.1 hg).2)
    have kept := (h.stable _ List.filter_sublist same).filter (order.ranks name)
    rw [List.filter_filter] at kept
    simp only [Bool.and_self] at kept
    exact (kept.eq_of_length (h.perm.filter _).length_eq.symm).symm
  · intro h
    refine ⟨h.perm, ordered_iff.2 h.ordered, fun run here same => ?_⟩
    cases run with
    | nil => exact List.nil_sublist _
    | cons f run =>
      have kept := here.filter (order.ranks f.1)
      rw [filter_ranks_run same, ← h.stable f.1] at kept
      exact kept.trans List.filter_sublist

theorem sort_eq_iff_stablySorted {order : ArrayOrder} {fs : Fields Value} {items : List Value} :
    order.sort fs = items ↔ ∃ gs, order.StablySorted fs gs ∧ items = gs.map Prod.snd := by
  simp only [stablySorted_iff]
  exact sort_eq_iff

theorem exists_stablySorted (order : ArrayOrder) (fs : Fields Value) :
    ∃ gs, order.StablySorted fs gs :=
  ⟨_, stablySorted_iff.2 (arranged_mergeSort order fs)⟩

/-- fields of different ranks are sorted into one list, whatever their order was -/
theorem StablySorted.eq_of_perm {order : ArrayOrder} {fs fs' gs gs' : Fields Value}
    (h : order.StablySorted fs gs) (h' : order.StablySorted fs' gs') (same : fs.Perm fs')
    (distinct : fs.Pairwise fun f g => ¬ order.SameRank f.1 g.1) : gs = gs' := by
  have perm : gs.Perm gs' := h.perm.trans (same.trans h'.perm.symm)
  have symm : Std.Symm fun f g : String × Value => ¬ order.SameRank f.1 g.1 :=
    ⟨fun _ _ differ same => differ same.symm⟩
  have apart : gs.Pairwise fun f g => ¬ order.SameRank f.1 g.1 :=
    (h.perm.symm.pairwise_iff fun {f g} => symm.symm f g).1 distinct
  refine perm.eq_of_pairwise (fun f g hf hg hfg hgf => ?_) (ordered_iff.1 h.ordered)
    (ordered_iff.1 h'.ordered)
  by_contra differ
  exact apart.forall hf (perm.mem_iff.2 hg) differ (sameRank_iff.2 ⟨hfg, hgf⟩)

end ArrayOrder

end Bson
