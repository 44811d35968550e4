/-!
# Bytes and little-endian words

* `Bytes.ofNat w n`, `Bytes.toNat`  the `w` bytes of a natural, least significant first, and the
                                    natural they stand for;
* `Bytes.ofInt32`, `Bytes.ofInt64`, `Bytes.ofUInt64`  the fixed-width words of the wire format,
                                    with their readers `toInt32`, `toInt64`, `toUInt64`;
* `utf8`, `ofUtf8?`                 the bytes of a text, and the text that bytes spell, if any.

Words and texts come back from their bytes (`toInt32_ofInt32`, `ofUtf8?_utf8`), and bytes that
spell a word or a text are the bytes of it (`ofInt32_toInt32`, `utf8_of_ofUtf8?`).
-/

namespace Bson

abbrev Bytes := List UInt8

namespace Bytes

/-! ### naturals -/

/-- the `w` low bytes of `n`, least significant first -/
def ofNat : (w n : Nat) → Bytes
  | 0, _ => []
  | w + 1, n => UInt8.ofNat n :: ofNat w (n / 256)

/-- the natural whose bytes these are, least significant first -/
def toNat : Bytes → Nat
  | [] => 0
  | b :: rest => b.toNat + 256 * toNat rest

@[simp] theorem length_ofNat (w n : Nat) : (ofNat w n).length = w := by
  induction w generalizing n with
  | zero => rfl
  | succ w ih => simp [ofNat, ih]

theorem toNat_ofNat (w n : Nat) : toNat (ofNat w n) = n % Nat.pow 256 w := by
  induction w generalizing n with
  | zero => simp [ofNat, toNat, Nat.mod_one]
  | succ w ih =>
    have byte : (UInt8.ofNat n).toNat = n % 256 := UInt8.toNat_ofNat'
    rw [ofNat, toNat, ih, byte, Nat.pow_eq, Nat.pow_eq, Nat.pow_succ', Nat.mod_mul]

theorem toNat_lt (bs : Bytes) : toNat bs < Nat.pow 256 bs.length := by
  induction bs with
  | nil => simp [toNat]
  | cons b rest ih =>
    have hb := b.toNat_lt
    rw [Nat.pow_eq] at ih
    rw [toNat, List.length_cons, Nat.pow_eq, Nat.pow_succ]
    omega

theorem ofNat_toNat (bs : Bytes) : ofNat bs.length (toNat bs) = bs := by
  induction bs with
  | nil => rfl
  | cons b rest ih =>
    have hb := b.toNat_lt
    rw [List.length_cons, ofNat, toNat]
    congr 1
    · rw [← UInt8.toNat_inj, UInt8.toNat_ofNat', Nat.add_mul_mod_self_left,
        Nat.mod_eq_of_lt (by simpa using hb)]
    · rw [Nat.add_mul_div_left _ _ (by decide), Nat.div_eq_of_lt (by simpa using hb), Nat.zero_add,
        ih]

/-! ### words -/

def ofUInt64 (n : UInt64) : Bytes := ofNat 8 n.toNat

def toUInt64 (bs : Bytes) : UInt64 := UInt64.ofNat (toNat bs)

/-- two's complement, four bytes -/
def ofInt32 (n : Int32) : Bytes := ofNat 4 n.toUInt32.toNat

def toInt32 (bs : Bytes) : Int32 := (UInt32.ofNat (toNat bs)).toInt32

/-- two's complement, eight bytes -/
def ofInt64 (n : Int64) : Bytes := ofUInt64 n.toUInt64

def toInt64 (bs : Bytes) : Int64 := (toUInt64 bs).toInt64

@[simp] theorem length_ofInt32 (n : Int32) : (ofInt32 n).length = 4 := length_ofNat ..

@[simp] theorem length_ofUInt64 (n : UInt64) : (ofUInt64 n).length = 8 := length_ofNat ..

@[simp] theorem length_ofInt64 (n : Int64) : (ofInt64 n).length = 8 := length_ofNat ..

@[simp] theorem toUInt64_ofUInt64 (n : UInt64) : toUInt64 (ofUInt64 n) = n := by
  have h := n.toNat_lt
  rw [toUInt64, ofUInt64, toNat_ofNat, Nat.mod_eq_of_lt (by simpa using h), UInt64.ofNat_toNat]

@[simp] theorem toInt64_ofInt64 (n : Int64) : toInt64 (ofInt64 n) = n := by
  rw [toInt64, ofInt64, toUInt64_ofUInt64]
  rfl

@[simp] theorem toInt32_ofInt32 (n : Int32) : toInt32 (ofInt32 n) = n := by
  have h := n.toUInt32.toNat_lt
  rw [toInt32, ofInt32, toNat_ofNat, Nat.mod_eq_of_lt (by simpa using h), UInt32.ofNat_toNat]
  rfl

theorem ofInt32_toInt32 {bs : Bytes} (h : bs.length = 4) : ofInt32 (toInt32 bs) = bs := by
  have small := toNat_lt bs
  have back := ofNat_toNat bs
  rw [h] at small back
  have word : (toInt32 bs).toUInt32.toNat = toNat bs :=
    UInt32.toNat_ofNat_of_lt' (by simpa using small)
  rw [ofInt32, word, back]

theorem ofUInt64_toUInt64 {bs : Bytes} (h : bs.length = 8) : ofUInt64 (toUInt64 bs) = bs := by
  have small := toNat_lt bs
  have back := ofNat_toNat bs
  rw [h] at small back
  have word : (toUInt64 bs).toNat = toNat bs := UInt64.toNat_ofNat_of_lt' (by simpa using small)
  rw [ofUInt64, word, back]

theorem ofInt64_toInt64 {bs : Bytes} (h : bs.length = 8) : ofInt64 (toInt64 bs) = bs :=
  ofUInt64_toUInt64 h

/-! every word is the word of its own bytes, and of no others -/

theorem ofInt32_eq_iff {n : Int32} {bs : Bytes} :
    ofInt32 n = bs ↔ bs.length = 4 ∧ n = toInt32 bs := by
  constructor
  · rintro rfl
    exact ⟨length_ofInt32 n, (toInt32_ofInt32 n).symm⟩
  · intro hx
    obtain ⟨h, rfl⟩ := hx
    exact ofInt32_toInt32 h

theorem ofUInt64_eq_iff {n : UInt64} {bs : Bytes} :
    ofUInt64 n = bs ↔ bs.length = 8 ∧ n = toUInt64 bs := by
  constructor
  · rintro rfl
    exact ⟨length_ofUInt64 n, (toUInt64_ofUInt64 n).symm⟩
  · intro hx
    obtain ⟨h, rfl⟩ := hx
    exact ofUInt64_toUInt64 h

theorem ofInt64_eq_iff {n : Int64} {bs : Bytes} :
    ofInt64 n = bs ↔ bs.length = 8 ∧ n = toInt64 bs := by
  constructor
  · rintro rfl
    exact ⟨length_ofInt64 n, (toInt64_ofInt64 n).symm⟩
  · intro hx
    obtain ⟨h, rfl⟩ := hx
    exact ofInt64_toInt64 h

end Bytes

/-! ### text -/

def utf8 (s : String) : Bytes := s.toUTF8.data.toList

def ofUtf8? (bs : Bytes) : Option String := String.fromUTF8? ⟨bs.toArray⟩

@[simp] theorem ofUtf8?_utf8 (s : String) : ofUtf8? (utf8 s) = some s := by
  have h : (⟨(utf8 s).toArray⟩ : ByteArray) = s.toByteArray := rfl
  rw [ofUtf8?, h, String.fromUTF8?, dif_pos s.isValidUTF8]
  rfl

theorem utf8_of_ofUtf8? {bs : Bytes} {s : String} (h : ofUtf8? bs = some s) : utf8 s = bs := by
  rw [ofUtf8?, String.fromUTF8?] at h
  split at h
  · injection h with h
    subst h
    rfl
  · simp at h

theorem utf8_inj {s t : String} : utf8 s = utf8 t ↔ s = t :=
  ⟨fun h => by simpa using congrArg ofUtf8? h, fun h => h ▸ rfl⟩

end Bson
