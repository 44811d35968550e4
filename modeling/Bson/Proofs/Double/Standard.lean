import Bson.Double.Text

/-!
# The patterns of NaN, and doubles that are no number

* `Double.standard`         the same double with every pattern of NaN made one;
* `Double.standard_eq_iff`  two doubles have the same one where their bits agree or both are NaN;
* `Double.eq_infinity`      what is neither finite nor NaN is an infinity;
* `Double.literal?_display`  the words for NaN and the infinities are read back.
-/

namespace Bson.Double

/-- the same double, with the pattern of `nan false` for every NaN -/
def standard (d : Double) : Double := if d.isNaN then nan false else d

theorem standard_of_not_nan {d : Double} (h : d.isNaN = false) : d.standard = d := by
  rw [standard, h]
  rfl

theorem standard_eq_iff (d e : Double) : d.standard = e.standard ↔ d = e ∨ d.isNaN ∧ e.isNaN := by
  have word : (nan false).isNaN = true := by decide
  rw [standard, standard]
  cases hd : d.isNaN <;> cases he : e.isNaN
  · simp
  · have differ : d ≠ nan false := fun h => by rw [h, word] at hd; cases hd
    have differ' : d ≠ e := fun h => by rw [h, he] at hd; cases hd
    simp [differ, differ']
  · have differ : nan false ≠ e := fun h => by rw [← h, word] at he; cases he
    have differ' : d ≠ e := fun h => by rw [h, he] at hd; cases hd
    simp [differ, differ']
  · simp

theorem standard_standard (d : Double) : d.standard.standard = d.standard := by
  rw [standard_eq_iff]
  cases h : d.isNaN with
  | false => exact .inl (standard_of_not_nan h)
  | true =>
    have word : (nan false).isNaN := by decide
    have made : d.standard = nan false := if_pos h
    rw [made]
    exact .inr ⟨word, word⟩

theorem not_nan_of_finite {d : Double} (h : d.isFinite) : d.isNaN = false := by
  have small : d.exponentField ≠ 2047 := Nat.ne_of_lt (of_decide_eq_true h)
  rw [isNaN, beq_false_of_ne small]
  rfl

theorem eq_infinity {d : Double} (infinite : d.isFinite = false) (nan : d.isNaN = false) :
    d = infinity d.sign := by
  have bound := d.bits.toNat_lt
  have field : ¬ d.exponentField < 2047 := of_decide_eq_false infinite
  rw [exponentField] at field
  have top : d.exponentField = 2047 := by
    rw [exponentField]
    omega
  rw [isNaN, top, fraction] at nan
  have low : d.bits.toNat % 0x10000000000000 = 0 := by simpa using nan
  rw [exponentField] at top
  have bits : d.bits = (infinity d.sign).bits := by
    rw [← UInt64.toNat_inj, infinity, ofParts, UInt64.toNat_ofNat', sign]
    by_cases negative : 0x8000000000000000 ≤ d.bits.toNat
    · rw [decide_eq_true negative, if_pos rfl]
      omega
    · rw [decide_eq_false negative, if_neg Bool.false_ne_true]
      omega
  cases d
  exact congrArg Double.mk bits

theorem literal?_display {d : Double} (infinite : d.isFinite = false) :
    literal? d.display = some d.standard := by
  rw [display, standard, infinite]
  cases nan : d.isNaN with
  | true =>
    show literal? "NaN" = some (Double.nan false)
    decide
  | false =>
    have same := eq_infinity infinite nan
    cases sign : d.sign with
    | true =>
      rw [sign] at same
      rw [same]
      decide
    | false =>
      rw [sign] at same
      rw [same]
      decide

end Bson.Double
