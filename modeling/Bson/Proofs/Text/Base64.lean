import Bson.Proofs.Text.Decimal
import Bson.Text.Base64

/-!
# Base64 texts and their bytes

A byte string is written as the octets of six-bit values (`Base64.values`), the last group filled up
with `=` (`Base64.utf8_encode`). The bytes of the values are the byte string (`packed_values`), no
bit of the last value is left over (`unusedBits_values`), and the two passes of the decoder give the
values back (`plainValues_octets`, `lastValues_octets`). So the text is read back
(`Base64.decode_encoded`).
-/

namespace Bson.Base64

/-- the six-bit values of a byte string, three bytes to four values -/
def values : Bytes → List Nat
  | [] => []
  | [a] =>
    let n := a.toNat * 16
    [n / 64, n % 64]
  | [a, b] =>
    let n := (a.toNat * 256 + b.toNat) * 4
    [n / 4096, n / 64 % 64, n % 64]
  | a :: b :: c :: rest =>
    let n := (a.toNat * 256 + b.toNat) * 256 + c.toNat
    n / 262144 :: n / 4096 % 64 :: n / 64 % 64 :: n % 64 :: values rest

/-- the number of `=` after the symbols of `size` bytes -/
def padding (size : Nat) : Nat := 2 * size % 3

def octet (n : Nat) : UInt8 := (String.utf8EncodeChar (symbol n)).headD pad

/-! ### symbols -/

theorem utf8EncodeChar_symbol {n : Nat} (h : n < 64) :
    String.utf8EncodeChar (symbol n) = [octet n] := by
  have all : ∀ n : Fin 64, String.utf8EncodeChar (symbol n.val) = [octet n.val] := by decide
  exact all ⟨n, h⟩

theorem value?_octet {n : Nat} (h : n < 64) : value? (octet n) = some n := by
  have all : ∀ n : Fin 64, value? (octet n.val) = some n.val := by decide
  exact all ⟨n, h⟩

theorem octet_ne_pad {n : Nat} (h : n < 64) : octet n ≠ pad := by
  have all : ∀ n : Fin 64, octet n.val ≠ pad := by decide
  exact all ⟨n, h⟩

theorem padding_add_three (size : Nat) : padding (size + 3) = padding size := by
  rw [padding, padding]
  omega

theorem symbols_eq (bs : Bytes) :
    symbols bs = (values bs).map symbol ++ List.replicate (padding bs.length) '=' := by
  induction bs using values.induct with
  | case1 => rfl
  | case2 a => simp [symbols, values, padding]
  | case3 a b => simp [symbols, values, padding]
  | case4 a b c rest ih =>
    rw [symbols, ih, values, List.length_cons, List.length_cons, List.length_cons,
      padding_add_three]
    rfl

theorem values_lt (bs : Bytes) : ∀ n ∈ values bs, n < 64 := by
  induction bs using values.induct with
  | case1 => exact nofun
  | case2 a =>
    have := a.toNat_lt
    simp only [values, List.forall_mem_cons]
    exact ⟨by omega, by omega, nofun⟩
  | case3 a b =>
    have := a.toNat_lt
    have := b.toNat_lt
    simp only [values, List.forall_mem_cons]
    exact ⟨by omega, by omega, by omega, nofun⟩
  | case4 a b c rest ih =>
    have := a.toNat_lt
    have := b.toNat_lt
    have := c.toNat_lt
    simp only [values, List.forall_mem_cons]
    exact ⟨by omega, by omega, by omega, by omega, ih⟩

theorem utf8_encode (bs : Bytes) :
    utf8 (encode bs) = (values bs).map octet ++ List.replicate (padding bs.length) pad := by
  have octets (vs : List Nat) (small : ∀ n ∈ vs, n < 64) :
      (vs.map symbol).flatMap String.utf8EncodeChar = vs.map octet := by
    induction vs with
    | nil => rfl
    | cons n vs ih =>
      obtain ⟨first, more⟩ := List.forall_mem_cons.1 small
      rw [List.map_cons, List.flatMap_cons, utf8EncodeChar_symbol first, ih more]
      rfl
  have pads (k : Nat) :
      (List.replicate k '=').flatMap String.utf8EncodeChar = List.replicate k pad := by
    induction k with
    | zero => rfl
    | succ k ih =>
      rw [List.replicate_succ, List.flatMap_cons, ih]
      rfl
  rw [encode, utf8_ofList, symbols_eq, List.flatMap_append, octets _ (values_lt bs), pads]

/-! ### what the values hold -/

theorem length_values (bs : Bytes) : ((values bs).length + padding bs.length) % 4 = 0 := by
  induction bs using values.induct with
  | case1 => rfl
  | case2 a => simp [values, padding]
  | case3 a b => simp [values, padding]
  | case4 a b c rest ih =>
    simp only [values, List.length_cons, padding_add_three]
    omega

theorem packed_values (bs : Bytes) : packed (values bs) = bs := by
  have byte {n : Nat} {b : UInt8} (h : n % 256 = b.toNat) : UInt8.ofNat n = b := by
    rw [← UInt8.toNat_inj, UInt8.toNat_ofNat']
    exact h
  induction bs using values.induct with
  | case1 => rfl
  | case2 a =>
    have := a.toNat_lt
    simp only [values, packed]
    rw [byte (b := a) (by omega)]
  | case3 a b =>
    have := a.toNat_lt
    have := b.toNat_lt
    simp only [values, packed]
    rw [byte (b := a) (by omega), byte (b := b) (by omega)]
  | case4 a b c rest ih =>
    have := a.toNat_lt
    have := b.toNat_lt
    have := c.toNat_lt
    simp only [values, packed, ih]
    rw [byte (b := a) (by omega), byte (b := b) (by omega), byte (b := c) (by omega)]

/-- Whole quads in front change nothing about the bits that are left over. -/
theorem unusedBits_drop {vs : List Nat} {k : Nat} (quads : k % 4 = 0) (h : k ≤ vs.length) :
    unusedBits (vs.drop k) = unusedBits vs := by
  obtain rfl | less := Nat.eq_or_lt_of_le h
  · rw [List.drop_length, unusedBits, unusedBits, quads]
    rfl
  · have same : (vs.length - k) % 4 = vs.length % 4 := by omega
    have inside : ¬ vs.length ≤ k := Nat.not_le.2 less
    rw [unusedBits, List.length_drop, same, List.getLast?_drop, if_neg inside, ← unusedBits]

theorem unusedBits_values (bs : Bytes) : unusedBits (values bs) = 0 := by
  induction bs using values.induct with
  | case1 => rfl
  | case2 a =>
    show a.toNat * 16 % 64 % 16 = 0
    omega
  | case3 a b =>
    show (a.toNat * 256 + b.toNat) * 4 % 64 % 4 = 0
    omega
  | case4 a b c rest ih =>
    rw [values, ← unusedBits_drop (k := 4) rfl (by simp)]
    exact ih

/-! ### the two passes of the decoder -/

theorem plainValues_octets {vs : List Nat} (small : ∀ n ∈ vs, n < 64) (offset : Nat) :
    plainValues offset (vs.map octet) = .ok vs := by
  induction vs generalizing offset with
  | nil => rfl
  | cons n vs ih =>
    obtain ⟨first, more⟩ := List.forall_mem_cons.1 small
    rw [List.map_cons, plainValues, value?_octet first, ih more]
    rfl

/-- Up to two `=` may end a group of whole quads. -/
theorem lastValues_pads {start place k : Nat} {firstPad : Option Nat} (few : k ≤ 2)
    (full : (place + k) % 4 = 0) :
    lastValues start place firstPad (List.replicate k pad) = .ok ([], k) := by
  induction k generalizing place firstPad with
  | zero => rfl
  | succ k ih =>
    have late : ¬ place % 4 < 2 := by omega
    have rest : (place + 1 + k) % 4 = 0 := by omega
    rw [List.replicate_succ, lastValues.eq_def]
    simp only [if_neg late, ih (by omega) rest]
    rfl

theorem lastValues_octets {start place k : Nat} {vs : List Nat} (small : ∀ n ∈ vs, n < 64)
    (few : k ≤ 2) (full : (place + vs.length + k) % 4 = 0) :
    lastValues start place none (vs.map octet ++ List.replicate k pad) = .ok (vs, k) := by
  induction vs generalizing place with
  | nil => exact lastValues_pads few full
  | cons n vs ih =>
    obtain ⟨first, more⟩ := List.forall_mem_cons.1 small
    rw [List.length_cons] at full
    have rest : (place + 1 + vs.length + k) % 4 = 0 := by omega
    rw [List.map_cons, List.cons_append, lastValues, if_neg (octet_ne_pad first)]
    simp only [value?_octet first, ih more rest]
    rfl

theorem decode_encoded (bs : Bytes) : decode (encode bs) = .ok bs := by
  have full := length_values bs
  have few : padding bs.length ≤ 2 := Nat.le_of_lt_succ (Nat.mod_lt _ (by decide))
  have small := values_lt bs
  have bits := unusedBits_values bs
  have bytes := packed_values bs
  unfold decode
  rw [utf8_encode]
  generalize values bs = vs at *
  generalize padding bs.length = k at *
  simp only [List.length_append, List.length_map, List.length_replicate]
  -- all `=` stand in the last group, which holds whole quads
  generalize hstart : (vs.length + k - 1) / 8 * 8 = start
  have inside : start ≤ vs.length := by omega
  have quads : start % 4 = 0 := by omega
  have notLone : ¬ (vs.length + k) % 4 = 1 := by omega
  have front : (vs.map octet ++ List.replicate k pad).take start = (vs.take start).map octet := by
    rw [List.take_append_of_le_length (by simpa using inside), List.map_take]
  have back : (vs.map octet ++ List.replicate k pad).drop start =
      (vs.drop start).map octet ++ List.replicate k pad := by
    rw [List.drop_append_of_le_length (by simpa using inside), List.map_drop]
  have rest : (0 + (vs.drop start).length + k) % 4 = 0 := by
    rw [List.length_drop]
    omega
  have noPadding : ¬ (k + (vs.drop start).length) % 4 ≠ 0 := by omega
  rw [if_neg notLone, front, back, plainValues_octets fun n hn => small n (List.mem_of_mem_take hn)]
  simp only [lastValues_octets (fun n hn => small n (List.mem_of_mem_drop hn)) few rest]
  rw [if_neg noPadding, unusedBits_drop quads inside, bits, List.take_append_drop, bytes]
  rfl

end Bson.Base64
