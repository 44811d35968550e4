import Mathlib.Algebra.Group.Nat.Defs
import Bson.ObjectId.Generator

/-!
# The order of identifiers

Byte strings of one length are ordered byte by byte as the naturals they spell, most significant
byte first.

* `ObjectId.bigEndian_eq`        that natural, through the bytes in reverse;
* `ObjectId.bigEndian_append`, `ObjectId.bigEndian_lt`, `ObjectId.bigEndian_inj`;
* `ObjectId.bytes_lt_iff`        the order of bytes is the order of naturals;
* `ObjectId.lt_iff`, `ObjectId.eq_iff`, `ObjectId.not_gt_iff`  the same of identifiers;
* `Generator.bigEndian_bigEndian`, `Generator.bigEndian_inj`  a natural written in `w` bytes.
-/

namespace Bson

theorem Bytes.toNat_append (as bs : Bytes) :
    Bytes.toNat (as ++ bs) = Bytes.toNat as + 256 ^ as.length * Bytes.toNat bs := by
  induction as with
  | nil => simp [Bytes.toNat]
  | cons a as ih =>
    rw [List.cons_append, Bytes.toNat, Bytes.toNat, ih, List.length_cons, Nat.pow_succ']
    rw [Nat.mul_add, Nat.mul_assoc, Nat.add_assoc]

namespace ObjectId

theorem bigEndian_eq (bs : Bytes) : bigEndian bs = Bytes.toNat bs.reverse := by
  have h (n : Nat) :
      bs.foldl (fun n b => 256 * n + b.toNat) n = Bytes.toNat bs.reverse + 256 ^ bs.length * n := by
    induction bs generalizing n with
    | nil => simp [Bytes.toNat]
    | cons b bs ih =>
      rw [List.foldl_cons, ih, List.reverse_cons, Bytes.toNat_append, List.length_reverse,
        List.length_cons, Nat.pow_succ]
      simp only [Bytes.toNat, Nat.mul_zero, Nat.add_zero, Nat.mul_add, Nat.mul_assoc]
      omega
  exact (h 0).trans (by rw [Nat.mul_zero, Nat.add_zero])

theorem bigEndian_append (as bs : Bytes) :
    bigEndian (as ++ bs) = bigEndian as * 256 ^ bs.length + bigEndian bs := by
  rw [bigEndian_eq, bigEndian_eq, bigEndian_eq, List.reverse_append, Bytes.toNat_append,
    List.length_reverse, Nat.mul_comm, Nat.add_comm]

theorem bigEndian_cons (b : UInt8) (bs : Bytes) :
    bigEndian (b :: bs) = b.toNat * 256 ^ bs.length + bigEndian bs := by
  have h := bigEndian_append [b] bs
  simpa [bigEndian] using h

theorem bigEndian_lt (bs : Bytes) : bigEndian bs < 256 ^ bs.length := by
  rw [bigEndian_eq]
  simpa using Bytes.toNat_lt bs.reverse

theorem bigEndian_inj {as bs : Bytes} (same : as.length = bs.length) :
    bigEndian as = bigEndian bs ↔ as = bs := by
  constructor
  · intro h
    rw [bigEndian_eq, bigEndian_eq] at h
    have back := Bytes.ofNat_toNat as.reverse
    rw [h, List.length_reverse, same, ← List.length_reverse, Bytes.ofNat_toNat] at back
    exact (List.reverse_inj.1 back).symm
  · rintro rfl
    rfl

/-- Byte strings of one length are ordered as the naturals they spell. -/
theorem bytes_lt_iff {as bs : Bytes} (same : as.length = bs.length) :
    as < bs ↔ bigEndian as < bigEndian bs := by
  induction as generalizing bs with
  | nil =>
    obtain rfl : bs = [] := List.length_eq_zero_iff.1 same.symm
    simp
  | cons a as ih =>
    cases bs with
    | nil => simp at same
    | cons b bs =>
      have same : as.length = bs.length := Nat.succ.inj same
      have ha := bigEndian_lt as
      have hb := bigEndian_lt bs
      rw [List.cons_lt_cons_iff, ih same, bigEndian_cons, bigEndian_cons]
      rw [same] at ha ⊢
      generalize 256 ^ bs.length = p at ha hb
      -- the first byte decides, since what follows it is less than one unit of it
      rw [UInt8.lt_iff_toNat_lt, ← UInt8.toNat_inj]
      obtain less | equal | more := Nat.lt_trichotomy a.toNat b.toNat
      · have step : (a.toNat + 1) * p ≤ b.toNat * p := Nat.mul_le_mul_right p less
        rw [Nat.add_mul, Nat.one_mul] at step
        exact iff_of_true (.inl less) (by omega)
      · rw [equal]
        simp
      · have step : (b.toNat + 1) * p ≤ a.toNat * p := Nat.mul_le_mul_right p more
        rw [Nat.add_mul, Nat.one_mul] at step
        exact iff_of_false (by omega) (by omega)

theorem lt_iff (a b : ObjectId) : a < b ↔ bigEndian a.bytes < bigEndian b.bytes :=
  bytes_lt_iff (a.length_bytes.trans b.length_bytes.symm)

theorem eq_iff {a b : ObjectId} : a = b ↔ bigEndian a.bytes = bigEndian b.bytes := by
  rw [bigEndian_inj (a.length_bytes.trans b.length_bytes.symm)]
  refine ⟨congrArg bytes, fun same => ?_⟩
  cases a
  cases b
  cases same
  rfl

theorem not_gt_iff {a b : ObjectId} : a.order b ≠ .gt ↔ bigEndian a.bytes ≤ bigEndian b.bytes := by
  rw [order]
  by_cases less : a < b
  · rw [if_pos less]
    exact iff_of_true nofun (Nat.le_of_lt ((lt_iff a b).1 less))
  · rw [if_neg less]
    rw [lt_iff] at less
    by_cases same : a = b
    · rw [if_pos same]
      exact iff_of_true nofun (Nat.le_of_eq (eq_iff.1 same))
    · rw [if_neg same]
      rw [eq_iff] at same
      exact iff_of_false (fun other => other rfl) (by omega)

end ObjectId

namespace Generator

theorem bigEndian_bigEndian (w n : Nat) : ObjectId.bigEndian (bigEndian w n) = n % 256 ^ w := by
  rw [ObjectId.bigEndian_eq, bigEndian, List.reverse_reverse, Bytes.toNat_ofNat]
  rfl

theorem bigEndian_inj (w m n : Nat) : bigEndian w m = bigEndian w n ↔ m % 256 ^ w = n % 256 ^ w := by
  rw [← ObjectId.bigEndian_inj (by simp), bigEndian_bigEndian, bigEndian_bigEndian]

end Generator

end Bson
