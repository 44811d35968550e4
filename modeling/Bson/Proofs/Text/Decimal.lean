import Mathlib.Algebra.Group.Nat.Defs
import Bson.Bytes
import Bson.Text.Decimal

/-!
# Decimal texts and their bytes

The digits of a natural come off at the end (`Decimal.utf8_ofNat`). So its text has no zero byte
(`Decimal.zero_not_mem_ofNat`) and as many bytes as digits (`Decimal.length_ofNat_le`), and it is
read back (`Decimal.unsigned?_ofNat`); so is the text of an integer (`Decimal.signed?_ofInt`).
-/

namespace Bson

theorem utf8_ofList (cs : List Char) :
    utf8 (String.ofList cs) = cs.flatMap String.utf8EncodeChar := by
  show (String.ofList cs).toByteArray.data.toList = _
  rw [String.toByteArray_ofList, List.utf8Encode, List.data_toByteArray]

namespace Decimal

/-! ### digits -/

theorem digit?_digitChar {d : Nat} (h : d < 10) : digit? d.digitChar = some d := by
  have ten : ∀ d : Fin 10, digit? d.val.digitChar = some d.val := by decide
  exact ten ⟨d, h⟩

theorem utf8EncodeChar_digitChar {d : Nat} (h : d < 10) :
    String.utf8EncodeChar d.digitChar = [UInt8.ofNat (48 + d)] := by
  have ten : ∀ d : Fin 10, String.utf8EncodeChar d.val.digitChar = [UInt8.ofNat (48 + d.val)] := by
    decide
  exact ten ⟨d, h⟩

/-! ### bytes -/

theorem utf8_ofNat (n : Nat) :
    utf8 (ofNat n) =
      (if n < 10 then [] else utf8 (ofNat (n / 10))) ++ [UInt8.ofNat (48 + n % 10)] := by
  rw [ofNat, utf8_ofList, Nat.toDigits_eq_if (by decide)]
  by_cases h : n < 10
  · rw [if_pos h, if_pos h, Nat.mod_eq_of_lt h, List.flatMap_singleton, utf8EncodeChar_digitChar h]
    rfl
  · rw [if_neg h, if_neg h, List.flatMap_append, List.flatMap_singleton,
      utf8EncodeChar_digitChar (Nat.mod_lt _ (by decide)), ofNat, utf8_ofList]

theorem zero_not_mem_ofNat (n : Nat) : 0 ∉ utf8 (ofNat n) := by
  induction n using Nat.strongRecOn with
  | ind n ih =>
    intro h
    rw [utf8_ofNat, List.mem_append, List.mem_singleton] at h
    rcases h with h | h
    · by_cases small : n < 10
      · rw [if_pos small] at h
        cases h
      · rw [if_neg small] at h
        exact ih _ (by omega) h
    · have digit := congrArg UInt8.toNat h
      rw [UInt8.toNat_ofNat'] at digit
      change 0 = _ at digit
      omega

theorem length_ofNat_le {n k : Nat} (h : n < 10 ^ (k + 1)) : (utf8 (ofNat n)).length ≤ k + 1 := by
  induction k generalizing n with
  | zero =>
    have small : n < 10 := by simpa using h
    rw [utf8_ofNat, if_pos small]
    exact Nat.le_refl _
  | succ k ih =>
    rw [utf8_ofNat, List.length_append, List.length_singleton]
    refine Nat.succ_le_succ ?_
    by_cases small : n < 10
    · rw [if_pos small]
      exact Nat.zero_le _
    · rw [if_neg small]
      refine ih ?_
      rw [Nat.pow_succ] at h
      omega

/-! ### reading back -/

theorem extend?_append (a : Nat) (cs ds : List Char) :
    extend? a (cs ++ ds) = (extend? a cs).bind fun n => extend? n ds := by
  induction cs generalizing a with
  | nil => rfl
  | cons c cs ih =>
    rw [List.cons_append, extend?, extend?]
    cases digit? c with
    | none => rfl
    | some d => exact ih _

theorem extend?_toDigits (n : Nat) : extend? 0 (Nat.toDigits 10 n) = some n := by
  induction n using Nat.strongRecOn with
  | ind n ih =>
    rw [Nat.toDigits_eq_if (by decide)]
    by_cases small : n < 10
    · rw [if_pos small, extend?, digit?_digitChar small]
      show some (10 * 0 + n) = some n
      rw [Nat.mul_zero, Nat.zero_add]
    · have last : n % 10 < 10 := Nat.mod_lt _ (by decide)
      rw [if_neg small, extend?_append, ih _ (by omega)]
      show extend? (n / 10) [(n % 10).digitChar] = some n
      rw [extend?, digit?_digitChar last]
      show some (10 * (n / 10) + n % 10) = some n
      rw [Nat.div_add_mod]

theorem not_mem_toDigits {c : Char} (h : ¬ c.isDigit) (n : Nat) : c ∉ Nat.toDigits 10 n :=
  fun there => h (Nat.isDigit_of_mem_toDigits (by decide) (by decide) there)

theorem digits?_toDigits (n : Nat) : digits? (Nat.toDigits 10 n) = some n := by
  have value := extend?_toDigits n
  cases hd : Nat.toDigits 10 n with
  | nil => exact absurd hd Nat.toDigits_ne_nil
  | cons c cs => rwa [hd] at value

theorem toList_ofNat (n : Nat) : (ofNat n).toList = Nat.toDigits 10 n := String.toList_ofList

theorem ofNat_ne_empty (n : Nat) : ofNat n ≠ "" := by
  intro empty
  have digits := toList_ofNat n
  rw [empty] at digits
  exact Nat.toDigits_ne_nil digits.symm

theorem unsigned?_ofNat {bound n : Nat} (h : n < bound) : unsigned? bound (ofNat n) = some n := by
  have plus : '+' ∉ Nat.toDigits 10 n := not_mem_toDigits (by decide) n
  unfold unsigned?
  rw [toList_ofNat]
  split
  · rename_i hd
    rw [hd] at plus
    exact absurd (List.mem_cons_self ..) plus
  · show (digits? (Nat.toDigits 10 n)).filter _ = _
    rw [digits?_toDigits]
    exact Option.filter_some_pos (decide_eq_true h)

theorem signed?_ofInt {bound : Nat} {n : Int} (low : -bound ≤ n) (high : n < bound) :
    signed? bound (ofInt n) = some n := by
  cases n with
  | ofNat n =>
    have plus : '+' ∉ Nat.toDigits 10 n := not_mem_toDigits (by decide) n
    have minus : '-' ∉ Nat.toDigits 10 n := not_mem_toDigits (by decide) n
    have bounded : n < bound := Int.ofNat_lt.1 high
    rw [ofInt, signed?, toList_ofNat]
    split
    · rename_i hd
      rw [hd] at minus
      exact absurd (List.mem_cons_self ..) minus
    · rename_i hd
      rw [hd] at plus
      exact absurd (List.mem_cons_self ..) plus
    · have kept : (some n).filter (fun n => decide (n < bound)) = some n :=
        Option.filter_some_pos (decide_eq_true bounded)
      rw [digits?_toDigits, kept]
      rfl
  | negSucc n =>
    have bounded : n + 1 ≤ bound := by omega
    have text : ("-" ++ ofNat (n + 1)).toList = '-' :: Nat.toDigits 10 (n + 1) := by
      rw [String.toList_append, toList_ofNat]
      rfl
    have kept : (some (n + 1)).filter (fun n => decide (n ≤ bound)) = some (n + 1) :=
      Option.filter_some_pos (decide_eq_true bounded)
    rw [ofInt, signed?, text]
    simp only [digits?_toDigits, kept]
    rfl

end Decimal

end Bson
