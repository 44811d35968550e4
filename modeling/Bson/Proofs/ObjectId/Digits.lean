import Bson.Proofs.ObjectId.Order
import Bson.Proofs.Text.Hex

/-!
# The text of an identifier

* `ObjectId.ofHex_eq_ok_iff`  a text of digits alone is read as the identifier that is written like
                        it in lower case;
* `ObjectId.exists_ofHex_iff`  there is one exactly for 24 digits;
* `ObjectId.timestamp_eq`  the seconds, in the natural that the bytes spell;
* `ObjectId.text_faithful`  so the text keeps the identifier and the order, along which the seconds
                        do not decrease.
-/

namespace Bson

namespace ObjectId

variable {text : String} {id a b : ObjectId}

/-! ### from text -/

theorem ofBytes_eq_ok_iff {bs : Bytes} : ofBytes bs = .ok id ↔ bs = id.bytes := by
  rw [ofBytes, ofBytes?]
  by_cases twelve : bs.length = 12
  · rw [dif_pos twelve]
    constructor
    · rintro ⟨⟩
      rfl
    · rintro rfl
      rfl
  · rw [dif_neg twelve]
    constructor
    · intro h
      cases h
    · intro same
      exact absurd (same ▸ id.length_bytes) twelve

theorem ofHex_eq_ok_iff :
    ofHex text = .ok id ↔ (∀ c ∈ text.toList, Hex.IsDigit c) ∧ id.hex = text.toLower := by
  rw [hex, ← Hex.decode_eq_ok_iff, ofHex]
  cases Hex.decode text with
  | error e =>
    constructor
    · intro h
      cases h
    · intro h
      cases h
  | ok bs => exact ofBytes_eq_ok_iff.trans (Except.ok.injEq ..).symm.to_iff

theorem length_hex (id : ObjectId) : id.hex.length = 24 := by
  rw [hex, Hex.encode, String.length_ofList, Hex.length_digits, id.length_bytes]

theorem exists_ofHex_iff :
    (∃ id, ofHex text = .ok id) ↔ text.length = 24 ∧ ∀ c ∈ text.toList, Hex.IsDigit c := by
  constructor
  · rintro ⟨id, read⟩
    obtain ⟨digits, lower⟩ := ofHex_eq_ok_iff.1 read
    refine ⟨?_, digits⟩
    rw [← length_hex id, lower]
    exact String.length_map.symm
  · rintro ⟨length, digits⟩
    obtain ⟨bs, decoded⟩ := Hex.exists_decode digits (by rw [length])
    have twelve : bs.length = 12 := by
      have lower := congrArg String.length (Hex.decode_eq_ok_iff.1 decoded).2
      have same : text.toLower.length = text.length := String.length_map
      rw [Hex.encode, String.length_ofList, Hex.length_digits, same, length] at lower
      omega
    refine ⟨⟨bs, twelve⟩, ?_⟩
    rw [ofHex, decoded]
    exact ofBytes_eq_ok_iff.2 rfl

/-! ### order -/

/-- the seconds are the highest of the digits to the base 256 -/
theorem timestamp_eq (id : ObjectId) : id.timestamp = bigEndian id.bytes / 256 ^ 8 := by
  have split := bigEndian_append (id.bytes.take 4) (id.bytes.drop 4)
  have rest := bigEndian_lt (id.bytes.drop 4)
  rw [List.take_append_drop] at split
  rw [List.length_drop, id.length_bytes] at split rest
  rw [timestamp, split, Nat.mul_comm, Nat.mul_add_div (by decide), Nat.div_eq_of_lt rest,
    Nat.add_zero]

theorem timestamp_le (h : a.order b ≠ .gt) : a.timestamp ≤ b.timestamp := by
  rw [timestamp_eq, timestamp_eq]
  exact Nat.div_le_div_right (not_gt_iff.1 h)

/-- **Identifiers as text**: exactly the texts of 24 hexadecimal digits are read, each as the
identifier that is written like it in lower case, so an identifier comes back from its text.
Identifiers are ordered like the bytes of their texts, and their seconds follow the order. -/
theorem text_faithful :
    (∀ text, (∃ id, ofHex text = .ok id) ↔
      text.length = 24 ∧ ∀ c ∈ text.toList, Hex.IsDigit c) ∧
    (∀ text id, ofHex text = .ok id → id.hex = text.toLower) ∧
    (∀ id : ObjectId, ofHex id.hex = .ok id) ∧
    (∀ a b : ObjectId, a < b ↔ utf8 a.hex < utf8 b.hex) ∧
    (∀ a b : ObjectId, a.order b ≠ .gt → a.timestamp ≤ b.timestamp) := by
  refine ⟨fun _ => exists_ofHex_iff, fun _ _ read => (ofHex_eq_ok_iff.1 read).2, ofHex_hex,
    fun _ _ => Hex.encode_lt_iff.symm, fun _ _ => timestamp_le⟩

/-- digits of both cases, and an identifier of the next second -/
theorem text_faithful_mixed_case :
    let id : ObjectId := ⟨[0, 0, 0, 255, 171, 205, 239, 1, 35, 69, 103, 137], rfl⟩
    let next : ObjectId := ⟨[0, 0, 1, 0, 0, 0, 0, 0, 0, 0, 0, 0], rfl⟩
    (ofHex "000000fFaBCdEF0123456789" = .ok id ∧ id.hex = "000000fFaBCdEF0123456789".toLower) ∧
      id.order next ≠ .gt ∧ id.timestamp ≤ next.timestamp := by
  intro id next
  have read : ofHex "000000fFaBCdEF0123456789" = .ok id := rfl
  have before : id.order next ≠ .gt := by decide
  obtain ⟨-, lower, -, -, seconds⟩ := text_faithful
  exact ⟨⟨read, lower _ id read⟩, before, seconds id next before⟩

end ObjectId

end Bson
