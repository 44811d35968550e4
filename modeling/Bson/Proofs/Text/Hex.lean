import Mathlib.Data.List.Induction
import Bson.ObjectId
import Bson.Proofs.Result
import Bson.Proofs.Text.Decimal

/-!
# Hexadecimal texts and their bytes

A byte string has twice as many digits as bytes, of the values `Hex.halves`.

* `Hex.IsDigit`         the digits of either case;
* `Hex.decode_eq_ok_iff`  the texts of digits alone are read, and each is the text of its bytes in
                        lower case, up to the case of its letters; so what was written is read back
                        (`Hex.decode_encoded`, `ObjectId.locatedHex_hex`);
* `Hex.exists_decode`   a text of evenly many digits stands for bytes;
* `Hex.encode_lt_iff`   byte strings are ordered like their texts.
-/

namespace Bson

namespace Hex

def IsDigit (c : Char) : Prop :=
  '0' ≤ c ∧ c ≤ '9' ∨ 'a' ≤ c ∧ c ≤ 'f' ∨ 'A' ≤ c ∧ c ≤ 'F'

instance (c : Char) : Decidable (IsDigit c) := inferInstanceAs (Decidable (_ ∨ _))

/-- the values of the digits of a byte string, the high half of each byte first -/
def halves (bs : Bytes) : List Nat := bs.flatMap fun b => [b.toNat / 16, b.toNat % 16]

def digitByte (n : Nat) : UInt8 := UInt8.ofNat (if n < 10 then 48 + n else 87 + n)

@[simp] theorem halves_nil : halves [] = [] := rfl

@[simp] theorem halves_cons (b : UInt8) (bs : Bytes) :
    halves (b :: bs) = b.toNat / 16 :: b.toNat % 16 :: halves bs := rfl

theorem digits_eq (bs : Bytes) : digits bs = (halves bs).map digit := by
  rw [digits, halves, List.map_flatMap]
  rfl

theorem halves_lt (bs : Bytes) : ∀ n ∈ halves bs, n < 16 := by
  intro n hn
  obtain ⟨b, -, hn⟩ := List.mem_flatMap.1 hn
  have bound := b.toNat_lt
  simp only [List.mem_cons, List.not_mem_nil, or_false] at hn
  omega

theorem length_halves (bs : Bytes) : (halves bs).length = 2 * bs.length := by
  induction bs with
  | nil => rfl
  | cons b bs ih =>
    simp only [halves_cons, List.length_cons, ih]
    omega

theorem halves_pair {h l : Nat} (high : h < 16) (low : l < 16) (bs : Bytes) :
    halves (UInt8.ofNat (16 * h + l) :: bs) = h :: l :: halves bs := by
  have bound : 16 * h + l < 256 := by omega
  have byte : (UInt8.ofNat (16 * h + l)).toNat = 16 * h + l := UInt8.toNat_ofNat_of_lt' bound
  have first : (16 * h + l) / 16 = h := by omega
  have second : (16 * h + l) % 16 = l := by omega
  rw [halves_cons, byte, first, second]

theorem exists_halves {ns : List Nat} (small : ∀ n ∈ ns, n < 16) (even : ns.length % 2 = 0) :
    ∃ bs, halves bs = ns := by
  induction ns using List.twoStepInduction with
  | nil => exact ⟨[], rfl⟩
  | singleton => cases even
  | cons_cons h l ns ih _ =>
    have high : h < 16 := small h (by simp)
    have low : l < 16 := small l (by simp)
    rw [List.length_cons, List.length_cons] at even
    obtain ⟨bs, rfl⟩ := ih (fun n hn => small n (by simp [hn])) (by omega)
    exact ⟨_, halves_pair high low bs⟩

/-! ### one digit -/

theorem utf8EncodeChar_digit {n : Nat} (small : n < 16) :
    String.utf8EncodeChar (digit n) = [digitByte n] := by
  have sixteen : ∀ n : Fin 16, String.utf8EncodeChar (digit n.val) = [digitByte n.val] := by decide
  exact sixteen ⟨n, small⟩

theorem value?_digitByte {n : Nat} (small : n < 16) : value? (digitByte n) = some n := by
  have sixteen : ∀ n : Fin 16, value? (digitByte n.val) = some n.val := by decide
  exact sixteen ⟨n, small⟩

theorem digitByte_inj {m n : Nat} (hm : m < 16) (hn : n < 16) :
    digitByte m = digitByte n ↔ m = n := by
  refine ⟨fun same => ?_, fun same => same ▸ rfl⟩
  have values := congrArg value? same
  rwa [value?_digitByte hm, value?_digitByte hn, Option.some.injEq] at values

theorem digit_inj {m n : Nat} (hm : m < 16) (hn : n < 16) : digit m = digit n ↔ m = n := by
  refine ⟨fun same => ?_, fun same => same ▸ rfl⟩
  have bytes := congrArg String.utf8EncodeChar same
  rw [utf8EncodeChar_digit hm, utf8EncodeChar_digit hn, List.cons.injEq] at bytes
  exact (digitByte_inj hm hn).1 bytes.1

theorem digitByte_lt_iff {m n : Nat} (hm : m < 16) (hn : n < 16) :
    digitByte m < digitByte n ↔ m < n := by
  have sixteen : ∀ m n : Fin 16, digitByte m.val < digitByte n.val ↔ m.val < n.val := by decide
  exact sixteen ⟨m, hm⟩ ⟨n, hn⟩

theorem value?_lt {b : UInt8} {n : Nat} (h : value? b = some n) : n < 16 := by
  have below {c : UInt8} (le : b ≤ c) : b.toNat ≤ c.toNat := UInt8.le_iff_toNat_le.1 le
  rw [value?] at h
  split at h
  case isTrue decimal =>
    have most : b.toNat ≤ 57 := below decimal.2
    cases h
    omega
  case isFalse =>
    split at h
    case isTrue lower =>
      have most : b.toNat ≤ 102 := below lower.2
      cases h
      omega
    case isFalse =>
      obtain ⟨upper, same⟩ := Option.ite_none_right_eq_some.1 h
      have most : b.toNat ≤ 70 := below upper.2
      cases same
      omega

/-- a digit is one byte of a value below 16, and that value's digit in lower case -/
theorem exists_value {c : Char} (h : IsDigit c) :
    ∃ b n, n < 16 ∧ String.utf8EncodeChar c = [b] ∧ value? b = some n ∧ c.toLower = digit n := by
  have ascii : ∀ c : Fin 128, IsDigit (Char.ofNat c.val) →
      ∃ n : Fin 16, (String.utf8EncodeChar (Char.ofNat c.val)).map value? = [some n.val] ∧
        (Char.ofNat c.val).toLower = digit n.val := by decide
  have small : c.toNat < 128 := by
    have below {d : Char} (le : c ≤ d) : c.toNat ≤ d.toNat := UInt32.le_iff_toNat_le.1 le
    rcases h with h | h | h
    · exact Nat.lt_of_le_of_lt (below h.2) (by decide)
    · exact Nat.lt_of_le_of_lt (below h.2) (by decide)
    · exact Nat.lt_of_le_of_lt (below h.2) (by decide)
  obtain ⟨n, bytes, lower⟩ := ascii ⟨c.toNat, small⟩ (by rwa [Char.ofNat_toNat])
  rw [Char.ofNat_toNat] at bytes lower
  obtain ⟨b, single, value⟩ := List.map_eq_singleton_iff.1 bytes
  exact ⟨b, n.val, n.isLt, single, value, lower⟩

theorem value?_of_large {n : Nat} (large : 128 ≤ n) (byte : n < 256) :
    value? (UInt8.ofNat n) = none := by
  have values : ∀ n : Fin 128, value? (UInt8.ofNat (128 + n.val)) = none := by decide
  have value := values ⟨n - 128, by omega⟩
  rwa [Nat.add_sub_cancel' large] at value

/-- any other character starts with a byte of no value -/
theorem exists_no_value {c : Char} (h : ¬ IsDigit c) :
    ∃ b bs, String.utf8EncodeChar c = b :: bs ∧ value? b = none := by
  have ascii : ∀ c : Fin 128, ¬ IsDigit (Char.ofNat c.val) →
      (String.utf8EncodeChar (Char.ofNat c.val)).map value? = [none] := by decide
  by_cases small : c.toNat < 128
  · have bytes := ascii ⟨c.toNat, small⟩ (by rwa [Char.ofNat_toNat])
    rw [Char.ofNat_toNat] at bytes
    obtain ⟨b, single, value⟩ := List.map_eq_singleton_iff.1 bytes
    exact ⟨b, [], single, value⟩
  · have code : c.val.toNat = c.toNat := rfl
    unfold String.utf8EncodeChar
    simp only [code]
    split
    · omega
    · split
      · exact ⟨_, _, rfl, value?_of_large (by omega) (by omega)⟩
      · split
        · exact ⟨_, _, rfl, value?_of_large (by omega) (by omega)⟩
        · exact ⟨_, _, rfl, value?_of_large (by omega) (by omega)⟩

/-! ### texts -/

/-- the values of the bytes of characters are those of digits exactly if the characters are these
digits, of either case -/
theorem values_eq_iff {cs : List Char} {ns : List Nat} (small : ∀ n ∈ ns, n < 16) :
    (cs.flatMap String.utf8EncodeChar).map value? = ns.map some ↔
      (∀ c ∈ cs, IsDigit c) ∧ cs.map Char.toLower = ns.map digit := by
  induction cs generalizing ns with
  | nil => cases ns <;> simp
  | cons c cs ih =>
    rw [List.flatMap_cons, List.map_append, List.map_cons, List.forall_mem_cons]
    by_cases digit : IsDigit c
    · obtain ⟨b, n, bound, bytes, value, lower⟩ := exists_value digit
      rw [bytes, List.map_singleton, value, lower]
      cases ns with
      | nil => simp
      | cons m ns =>
        obtain ⟨first, more⟩ := List.forall_mem_cons.1 small
        rw [List.singleton_append, List.map_cons, List.map_cons, List.cons.injEq, List.cons.injEq,
          Option.some.injEq, digit_inj bound first, ih more]
        tauto
    · obtain ⟨b, bs, bytes, value⟩ := exists_no_value digit
      rw [bytes, List.map_cons, value]
      cases ns with
      | nil => simp
      | cons m ns => simp [digit]

theorem exists_values {cs : List Char} (digits : ∀ c ∈ cs, IsDigit c) :
    ∃ ns : List Nat, (∀ n ∈ ns, n < 16) ∧ cs.map Char.toLower = ns.map digit := by
  induction cs with
  | nil => exact ⟨[], nofun, rfl⟩
  | cons c cs ih =>
    obtain ⟨first, more⟩ := List.forall_mem_cons.1 digits
    obtain ⟨_, n, bound, -, -, lower⟩ := exists_value first
    obtain ⟨ns, small, rest⟩ := ih more
    exact ⟨n :: ns, List.forall_mem_cons.2 ⟨bound, small⟩, by rw [List.map_cons, lower, rest]; rfl⟩

theorem decodeFrom_eq_ok_iff {position : Nat} {text bs : Bytes} :
    decodeFrom position text = .ok bs ↔ text.map value? = (halves bs).map some := by
  induction text using List.twoStepInduction generalizing position bs with
  | nil => cases bs <;> simp [decodeFrom]
  | singleton b => cases bs <;> simp [decodeFrom]
  | cons_cons hi lo text ih _ =>
    have read {b : UInt8} {position n : Nat} :
        readDigit b position = .ok n ↔ value? b = some n := by
      unfold readDigit
      cases value? b <;> simp
    simp only [decodeFrom, Except.bind_eq_ok_iff, read, ih]
    constructor
    · rintro ⟨h, high, l, low, tail, later, ⟨⟩⟩
      rw [halves_pair (value?_lt high) (value?_lt low), List.map_cons, List.map_cons, high, low,
        later]
      rfl
    · intro values
      cases bs with
      | nil => simp at values
      | cons b bs =>
        simp only [halves_cons, List.map_cons, List.cons.injEq] at values
        obtain ⟨high, low, later⟩ := values
        refine ⟨_, high, _, low, bs, later, ?_⟩
        rw [Nat.div_add_mod, UInt8.ofNat_toNat]
        rfl

theorem length_of_values {text bs : Bytes} (h : text.map value? = (halves bs).map some) :
    text.length = 2 * bs.length := by
  have lengths := congrArg List.length h
  rwa [List.length_map, List.length_map, length_halves] at lengths

/-- a text is read by the values of its bytes: that it has evenly many digits follows -/
theorem decode_eq_ok_iff_values {text : String} {bs : Bytes} :
    decode text = .ok bs ↔ (utf8 text).map value? = (halves bs).map some := by
  show (if (utf8 text).length % 2 = 1 then _ else _) = _ ↔ _
  by_cases odd : (utf8 text).length % 2 = 1
  · rw [if_pos odd]
    refine ⟨nofun, fun values => ?_⟩
    have even := length_of_values values
    omega
  · rw [if_neg odd, decodeFrom_eq_ok_iff]

theorem length_of_decode {text : String} {bs : Bytes} (read : decode text = .ok bs) :
    (utf8 text).length = 2 * bs.length := length_of_values (decode_eq_ok_iff_values.1 read)

theorem utf8_encode (bs : Bytes) : utf8 (encode bs) = (halves bs).map digitByte := by
  induction bs with
  | nil => rfl
  | cons b bs ih =>
    have bound := b.toNat_lt
    have high := utf8EncodeChar_digit (n := b.toNat / 16) (by omega)
    have low := utf8EncodeChar_digit (n := b.toNat % 16) (by omega)
    rw [encode, utf8_ofList] at ih ⊢
    rw [digits_cons, List.flatMap_cons, List.flatMap_cons, high, low, ih]
    rfl

theorem decode_encoded (bs : Bytes) : decode (encode bs) = .ok bs := by
  rw [decode_eq_ok_iff_values, utf8_encode, List.map_map]
  exact List.map_congr_left fun n hn => value?_digitByte (halves_lt bs n hn)

theorem encode_eq_toLower_iff {text : String} {bs : Bytes} :
    encode bs = text.toLower ↔ text.toList.map Char.toLower = (halves bs).map digit := by
  have lower : text.toLower.toList = text.toList.map Char.toLower := String.toList_map
  rw [← String.toList_inj, encode, String.toList_ofList, lower, digits_eq, eq_comm]

/-- texts of digits alone are read, as the bytes that are written like them in lower case -/
theorem decode_eq_ok_iff {text : String} {bs : Bytes} :
    decode text = .ok bs ↔ (∀ c ∈ text.toList, IsDigit c) ∧ encode bs = text.toLower := by
  have bytes : utf8 text = text.toList.flatMap String.utf8EncodeChar := by
    rw [← utf8_ofList, String.ofList_toList]
  rw [decode_eq_ok_iff_values, bytes, values_eq_iff (halves_lt bs), encode_eq_toLower_iff]

theorem exists_decode {text : String} (digits : ∀ c ∈ text.toList, IsDigit c)
    (even : text.length % 2 = 0) : ∃ bs, decode text = .ok bs := by
  obtain ⟨ns, small, lower⟩ := exists_values digits
  have length := congrArg List.length lower
  rw [List.length_map, List.length_map, String.length_toList] at length
  obtain ⟨bs, rfl⟩ := exists_halves small (length ▸ even)
  exact ⟨bs, decode_eq_ok_iff.2 ⟨digits, encode_eq_toLower_iff.2 lower⟩⟩

/-! ### order -/

/-- byte strings are ordered like the texts that they are written as -/
theorem encode_lt_iff {as bs : Bytes} : utf8 (encode as) < utf8 (encode bs) ↔ as < bs := by
  rw [utf8_encode, utf8_encode]
  induction as generalizing bs with
  | nil => cases bs <;> simp
  | cons a as ih =>
    cases bs with
    | nil => simp
    | cons b bs =>
      have ha := a.toNat_lt
      have hb := b.toNat_lt
      have high : a.toNat / 16 < 16 ∧ b.toNat / 16 < 16 := by omega
      have low : a.toNat % 16 < 16 ∧ b.toNat % 16 < 16 := by omega
      simp only [halves_cons, List.map_cons, List.cons_lt_cons_iff, ih,
        digitByte_lt_iff high.1 high.2, digitByte_inj high.1 high.2,
        digitByte_lt_iff low.1 low.2, digitByte_inj low.1 low.2, UInt8.lt_iff_toNat_lt,
        ← UInt8.toNat_inj]
      -- the high half decides first, then the low half
      by_cases later : as < bs
      · simp only [later, and_true]
        omega
      · simp only [later, and_false, or_false]
        omega

end Hex

namespace ObjectId

theorem ofHex_hex (id : ObjectId) : ofHex id.hex = .ok id := by
  rw [ofHex, hex, Hex.decode_encoded]
  show ofBytes id.bytes = _
  rw [ofBytes, ofBytes?_bytes]

theorem locatedHex_hex (id : ObjectId) : locatedHex id.hex = .ok id := by
  rw [locatedHex, ofHex_hex]

end ObjectId

end Bson
