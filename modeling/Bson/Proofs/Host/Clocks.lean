import Mathlib.Algebra.Group.Int.Defs
import Bson.Host.Coercion

/-!
# Two clocks

A time of either kind stands for an instant, counted in nanoseconds from the epoch and negative
before it (`UtcTime.instant`, `WallTime.instant`). Both become a date in milliseconds.

* `UtcTime.millis_eq`   the milliseconds of an instant by its seconds are rounded down;
* `WallTime.millis_eq`  those of an instant by its distance are rounded towards the epoch;
* `tdiv_milli`          which is one more before the epoch, between two milliseconds;
* `Value.ofNative_clocks`  so an instant has one value by both clocks exactly if it is not there.
-/

namespace Bson

/-- the instant in nanoseconds from the epoch -/
def UtcTime.instant (t : UtcTime) : Int := t.seconds * 1000000000 + t.nanos

/-- the nanoseconds to the epoch, or from it -/
def WallTime.distance (t : WallTime) : Nat := t.seconds * 1000000000 + t.nanos

def WallTime.instant (t : WallTime) : Int := if t.beforeEpoch then -t.distance else t.distance

/-! ### rounding -/

/-- rounding down and rounding towards zero differ by one below zero, between two multiples -/
theorem tdiv_milli (n : Int) :
    n.tdiv 1000000 = n.fdiv 1000000 + if 0 ≤ n ∨ 1000000 ∣ n then 0 else 1 := by
  rw [Int.fdiv_eq_ediv_of_nonneg n (by decide), Int.tdiv_eq_ediv]
  rfl

theorem UtcTime.millis_eq (t : UtcTime) : t.millis = t.instant.fdiv 1000000 := by
  rw [Int.fdiv_eq_ediv_of_nonneg _ (by decide), millis, instant]
  omega

theorem WallTime.millis_eq (t : WallTime) :
    t.millis = Int64.ofInt (t.instant.tdiv 1000000) := by
  have whole : t.seconds * 1000 + t.nanos / 1000000 = t.distance / 1000000 := by
    rw [distance]
    omega
  have away : Int64.ofNat (t.distance / 1000000) =
      Int64.ofInt ((t.distance : Int).tdiv 1000000) := Int64.ofInt_eq_ofNat.symm
  unfold millis instant
  rw [whole, away]
  cases t.beforeEpoch with
  | true => exact (by rw [if_pos rfl, if_pos rfl, Int.neg_tdiv, Int64.ofInt_neg])
  | false => rfl

/-! ### one instant -/

/-- **One instant by two clocks**: where its milliseconds fit 64 bits, the clock that counts seconds
gives the date rounded down, and the clock that measures the distance from the epoch gives it
rounded towards the epoch. The two are the same date exactly if the instant is not before the epoch
or is a whole number of milliseconds; otherwise the second is one millisecond late. -/
theorem Value.ofNative_clocks {u : UtcTime} {w : WallTime} (same : u.instant = w.instant)
    (low : -2 ^ 63 ≤ u.instant.fdiv 1000000) (high : u.instant.fdiv 1000000 < 2 ^ 63) :
    ∃ down inward : Int64,
      ofNative (.utcTime u) = .dateTime down ∧ down.toInt = u.instant.fdiv 1000000 ∧
      ofNative (.wallTime w) = .dateTime inward ∧ inward.toInt = u.instant.tdiv 1000000 ∧
      (ofNative (.wallTime w) = ofNative (.utcTime u) ↔
        0 ≤ u.instant ∨ 1000000 ∣ u.instant) ∧
      (¬ (0 ≤ u.instant ∨ 1000000 ∣ u.instant) → inward.toInt = down.toInt + 1) := by
  have rounded := tdiv_milli u.instant
  have utc : ofNative (.utcTime u) = .dateTime (Int64.ofInt (u.instant.fdiv 1000000)) := by
    rw [ofNative, UtcTime.millis_eq]
  have wall : ofNative (.wallTime w) = .dateTime (Int64.ofInt (u.instant.tdiv 1000000)) := by
    rw [ofNative, WallTime.millis_eq, same]
  have down := Int64.toInt_ofInt_of_le low high
  have inward : (Int64.ofInt (u.instant.tdiv 1000000)).toInt = u.instant.tdiv 1000000 := by
    -- only an instant before the epoch is rounded up, and then at most to the epoch
    rw [Int.fdiv_eq_ediv_of_nonneg _ (by decide)] at low high rounded
    refine Int64.toInt_ofInt_of_le ?_ ?_
    · omega
    · omega
  refine ⟨_, _, utc, down, wall, inward, ?_, fun between => ?_⟩
  · rw [wall, utc, dateTime.injEq, ← Int64.toInt_inj, down, inward, rounded]
    by_cases whole : 0 ≤ u.instant ∨ 1000000 ∣ u.instant
    · rw [if_pos whole, Int.add_zero]
      exact iff_of_true rfl whole
    · rw [if_neg whole]
      exact iff_of_false (by omega) whole
  · rw [down, inward, rounded, if_neg between]

/-- one and a half milliseconds before the epoch -/
theorem Value.ofNative_clocks_between :
    let u : UtcTime := ⟨-1, 998500000⟩
    let w : WallTime := ⟨true, 0, 1500000⟩
    u.instant = w.instant ∧
      (-2 ^ 63 ≤ u.instant.fdiv 1000000 ∧ u.instant.fdiv 1000000 < 2 ^ 63) ∧
        ofNative (.wallTime w) ≠ ofNative (.utcTime u) := by
  intro u w
  have same : u.instant = w.instant := by decide +kernel
  have low : -2 ^ 63 ≤ u.instant.fdiv 1000000 := by decide +kernel
  have high : u.instant.fdiv 1000000 < 2 ^ 63 := by decide +kernel
  obtain ⟨-, -, -, -, -, -, agree, -⟩ := ofNative_clocks same low high
  exact ⟨same, ⟨low, high⟩, fun alike => absurd (agree.1 alike) (by decide +kernel)⟩

/-- that instant is two milliseconds before the epoch by one clock, and one by the other -/
theorem Value.ofNative_clocks_apart :
    let u : UtcTime := ⟨-1, 998500000⟩
    let w : WallTime := ⟨true, 0, 1500000⟩
    u.instant = w.instant ∧ u.instant.fdiv 1000000 = -2 ∧
      ofNative (.utcTime u) = .dateTime (-2) ∧ ofNative (.wallTime w) = .dateTime (-1) := by
  intro u w
  have down : u.millis = -2 := by decide +kernel
  have inward : w.millis = -1 := by decide +kernel
  refine ⟨by decide +kernel, by decide +kernel, ?_, ?_⟩
  · rw [ofNative, down]
    rfl
  · rw [ofNative, inward]

end Bson
