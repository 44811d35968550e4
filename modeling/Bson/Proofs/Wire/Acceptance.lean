import Bson.Proofs.Wire.Decoding

/-!
# Decoding whole inputs

* `front`               the bytes of the document at the front of an input, if it declares a length
                        under the ceiling and has as many bytes;
* `Config.fields_nested`  decoding takes the front, and reads it as a container is read, of which
                        as many levels may be entered as the limit says, but at least one;
* `Config.decodeDocument_accepts`  the decoder accepts exactly the documents of the grammar that
                        keep the limits, and never looks behind them.
-/

namespace Bson

open Grammar

def front (ceiling : Nat) (bs : Bytes) : Except Error Bytes := do
  let n ← Reader.int32.result bs
  let declared ← declaredLength ceiling n
  if bs.length < declared then .error Fault.unexpectedEof.error else .ok (bs.take declared)

theorem int32_result_of_le {bs : Bytes} (h : 4 ≤ bs.length) :
    Reader.int32.result bs = .ok (Bytes.toInt32 (bs.take 4)) := by
  have h1 : Reader.int32 bs = .ok (Bytes.toInt32 (bs.take 4)) (bs.drop 4) :=
    (Reader.accepts_int32 _ _ _).2
      ⟨bs.take 4, (List.take_append_drop 4 bs).symm, List.length_take_of_le h, rfl⟩
  rw [Reader.result, h1]

theorem int32_result_of_lt {bs : Bytes} (h : bs.length < 4) :
    Reader.int32.result bs = .error Fault.unexpectedEof.error := by
  have h1 : Reader.int32 bs = .error Fault.unexpectedEof.error bs := by
    show (Bytes.toInt32 <$> Reader.bytes 4) bs = _
    rw [← bind_pure_comp, EStateM.bind_apply, Reader.bytes_of_lt h]
  rw [Reader.result, h1]

theorem declaredLength_eq_ok_iff {ceiling : Nat} {n : Int32} {declared : Nat} :
    declaredLength ceiling n = .ok declared ↔
      (Reader.smallestDocument : Int) ≤ n.toInt ∧ declared ≤ ceiling ∧ n.toInt = declared := by
  unfold declaredLength Reader.smallestDocument
  by_cases h1 : n.toInt < (5 : Nat)
  · rw [if_pos h1]
    constructor
    · intro h
      cases h
    · omega
  rw [if_neg h1]
  by_cases h2 : ceiling < n.toInt.toNat
  · rw [if_pos h2]
    constructor
    · intro h
      cases h
    · omega
  rw [if_neg h2]
  constructor
  · intro h
    injection h with h
    omega
  · intro hx
    obtain ⟨-, -, h⟩ := hx
    rw [h, Int.toNat_natCast]

/-- the front is a prefix that declares its own length, and not too great a one -/
theorem front_eq_ok_iff {ceiling : Nat} {bs p : Bytes} :
    front ceiling bs = .ok p ↔ p <+: bs ∧ Delimited p ∧ p.length ≤ ceiling := by
  unfold front
  rw [Except.bind_eq_ok_iff]
  constructor
  · intro hx
    obtain ⟨n, hn, h⟩ := hx
    obtain ⟨declared, hd, h⟩ := Except.bind_eq_ok_iff.1 h
    obtain ⟨small, large, hlen⟩ := declaredLength_eq_ok_iff.1 hd
    by_cases short : bs.length < declared
    · rw [if_pos short] at h
      cases h
    rw [if_neg short] at h
    injection h with h
    subst h
    have h4 : 4 ≤ bs.length := by
      rcases Nat.lt_or_ge bs.length 4 with h4 | h4
      · rw [int32_result_of_lt h4] at hn
        cases hn
      · exact h4
    rw [int32_result_of_le h4] at hn
    injection hn with hn
    subst hn
    have hl : (bs.take declared).length = declared := List.length_take_of_le (by omega)
    refine ⟨List.take_prefix _ _, ⟨?_, ?_, ?_⟩, by omega⟩
    · rw [hl]
      omega
    · unfold Reader.smallestDocument at small
      rw [List.length_take, hl]
      omega
    · unfold Reader.smallestDocument at small
      rw [List.take_take, Nat.min_eq_left (by omega), hl, hlen]
  · intro hx
    obtain ⟨⟨rest, rfl⟩, ⟨small, hl⟩, large⟩ := hx
    have h4 : 4 ≤ p.length := Nat.le_of_succ_le small
    refine ⟨_, int32_result_of_le (by rw [List.length_append]; omega), ?_⟩
    rw [List.take_append_of_le_length h4, Except.bind_eq_ok_iff]
    refine ⟨p.length, declaredLength_eq_ok_iff.2 ⟨?_, large, hl.2⟩, ?_⟩
    · rw [hl.2]
      omega
    · rw [if_neg (by simp), List.take_left]

theorem front_eq_tooLarge {ceiling : Nat} {p : Bytes} (h : Delimited p)
    (large : ceiling < p.length) :
    front ceiling p = .error (.documentTooLarge p.length ceiling) := by
  have small : ¬ (p.length : Int) < Reader.smallestDocument := by
    have := h.1
    omega
  unfold front
  rw [int32_result_of_le (Nat.le_of_succ_le h.1)]
  show (declaredLength ceiling _ >>= _) = _
  unfold declaredLength
  rw [h.2.2, if_neg small, Int.toNat_natCast, if_pos large]
  rfl

theorem front_append {ceiling : Nat} {p : Bytes} (h : IsLength (p.take 4) p.length) (rest : Bytes) :
    front ceiling (p ++ rest) = front ceiling p := by
  have h4 : 4 ≤ p.length := by
    have := h.1
    rw [List.length_take] at this
    omega
  unfold front
  rw [int32_result_of_le h4, int32_result_of_le (by rw [List.length_append]; omega),
    List.take_append_of_le_length h4]
  show (declaredLength ceiling _ >>= _) = (declaredLength ceiling _ >>= _)
  cases hd : declaredLength ceiling (Bytes.toInt32 (p.take 4)) with
  | error e => rfl
  | ok declared =>
    obtain ⟨-, -, hlen⟩ := declaredLength_eq_ok_iff.1 hd
    have hp : declared = p.length := by
      have := h.2
      omega
    show (if _ then _ else _) = (if _ then _ else _)
    rw [hp, if_neg (by simp), if_neg (by simp), List.take_left, List.take_length]

namespace Config

theorem fields_eq (config : Config) (shape : Shape) (nesting : Nesting) (bs : Bytes) :
    config.fields shape nesting bs = front config.maxDocumentSize bs >>= fun p =>
      elementsOf (readTagged config.arrayOrder shape nesting
        (contents config (config.maxNestingDepth - 1))) (p.drop 4) := by
  unfold fields front
  cases Reader.int32.result bs with
  | error e => rfl
  | ok n =>
    show (declaredLength _ n >>= _) = (declaredLength _ n >>= _) >>= _
    cases declaredLength config.maxDocumentSize n with
    | error e => rfl
    | ok declared =>
      show (if _ then _ else _) = (if _ then _ else _) >>= _
      split <;> rfl

/-- the front is read as a container, with one level more than may be entered below it -/
theorem fields_nested (config : Config) (shape : Shape) (bs : Bytes) :
    config.fields shape .nested bs =
      front config.maxDocumentSize bs >>= contents config (max 1 config.maxNestingDepth) shape := by
  have h : max 1 config.maxNestingDepth = config.maxNestingDepth - 1 + 1 := by omega
  rw [fields_eq, h]
  rfl

/-- **The decoder accepts exactly the grammar**: a prefix of the input that declares its own length,
keeps the ceiling and the nesting limit, and denotes the document. What follows such a prefix has
no influence on the result. -/
theorem decodeDocument_accepts (config : Config) :
    (∀ bs d, config.decodeDocument .nested bs = .ok d ↔
      ∃ p, p <+: bs ∧ IsLength (p.take 4) p.length ∧ 5 ≤ p.length ∧
        p.length ≤ config.maxDocumentSize ∧ IsDocument config.arrayOrder p d ∧
          Document.depth d ≤ max 1 config.maxNestingDepth) ∧
      ∀ p rest, IsLength (p.take 4) p.length →
        config.decodeDocument .nested (p ++ rest) = config.decodeDocument .nested p := by
  unfold decodeDocument
  refine ⟨fun bs d => ?_, fun p rest h => ?_⟩
  · rw [fields_nested, Except.bind_eq_ok_iff]
    constructor
    · intro hx
      obtain ⟨p, hp, hd⟩ := hx
      obtain ⟨prefixed, delimited, large⟩ := front_eq_ok_iff.1 hp
      obtain ⟨hdoc, depth⟩ := (contents_eq_ok_iff delimited).1 hd
      exact ⟨p, prefixed, delimited.2, delimited.1, large, hdoc, depth⟩
    · intro hx
      obtain ⟨p, prefixed, hlen, small, large, hdoc, depth⟩ := hx
      exact ⟨p, front_eq_ok_iff.2 ⟨prefixed, ⟨small, hlen⟩, large⟩,
        (contents_eq_ok_iff ⟨small, hlen⟩).2 ⟨hdoc, depth⟩⟩
  · rw [fields_nested, fields_nested, front_append h]

end Config

end Bson
