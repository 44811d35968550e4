import Bson.Proofs.Result
import Bson.Proofs.Wire.Grammar

/-!
# Readers and their formats

`Reader.Accepts r format`: the reader `r` succeeds exactly on the bytes of a format, whatever stands
behind them, and leaves what stands behind them. The format of a reader that is put together
is put together from those of its parts (`Accepts.map`, `Accepts.bind`), and the readers of texts,
of words and of whole documents have the formats of the grammar.
-/

namespace Bson

namespace Reader

open Grammar

variable {α β : Type}

/-- `r` succeeds exactly on the bytes of the format, and leaves what stands behind them -/
def Accepts (r : Reader α) (format : Bytes → α → Prop) : Prop :=
  ∀ input a rest, r input = .ok a rest ↔ ∃ bs, input = bs ++ rest ∧ format bs a

/-- no byte string begins with two different parts of a format that a reader accepts -/
theorem Accepts.unique {r : Reader α} {F : Bytes → α → Prop} (h : r.Accepts F)
    {bs cs rest left : Bytes} {a b : α} (hbs : F bs a) (hcs : F cs b)
    (same : bs ++ rest = cs ++ left) : bs = cs ∧ a = b ∧ rest = left := by
  have h1 : r (bs ++ rest) = .ok a rest := (h _ _ _).2 ⟨bs, rfl, hbs⟩
  have h2 : r (cs ++ left) = .ok b left := (h _ _ _).2 ⟨cs, rfl, hcs⟩
  rw [same, h2] at h1
  injection h1 with hb hleft
  subst hb hleft
  exact ⟨List.append_cancel_right same, rfl, rfl⟩

/-! ### putting readers together -/

theorem Accepts.congr {r : Reader α} {F G : Bytes → α → Prop} (h : r.Accepts F)
    (hFG : ∀ bs a, F bs a ↔ G bs a) : r.Accepts G := by
  intro input a rest
  rw [h]
  exact exists_congr fun bs => and_congr_right fun _ => hFG bs a

theorem accepts_of_stay {r : Reader α} {P : α → Prop}
    (h : ∀ input a rest, r input = .ok a rest ↔ input = rest ∧ P a) :
    r.Accepts fun bs a => bs = [] ∧ P a := by
  intro input a rest
  rw [h]
  constructor
  · intro hx
    obtain ⟨rfl, hp⟩ := hx
    exact ⟨[], rfl, rfl, hp⟩
  · intro hx
    obtain ⟨bs, rfl, rfl, hp⟩ := hx
    exact ⟨rfl, hp⟩

theorem accepts_pure (b : α) : (pure b : Reader α).Accepts fun bs a => bs = [] ∧ a = b :=
  accepts_of_stay fun input a rest => by
    rw [pure_apply, EStateM.Result.ok.injEq, and_comm, eq_comm (a := b)]

theorem accepts_fail (f : Fault) : (fail f : Reader α).Accepts fun _ _ => False := by
  intro input a rest
  simp

theorem accepts_lift (result : Except Error α) :
    (lift result).Accepts fun bs a => bs = [] ∧ result = .ok a :=
  accepts_of_stay fun input a rest => by
    cases result <;> simp [lift, and_comm]

theorem Accepts.bind {r : Reader α} {f : α → Reader β} {F : Bytes → α → Prop}
    {G : α → Bytes → β → Prop} (hr : r.Accepts F) (hf : ∀ a, (f a).Accepts (G a)) :
    (r >>= f).Accepts fun bs b => ∃ a cs ds, bs = cs ++ ds ∧ F cs a ∧ G a ds b := by
  intro input b rest
  rw [EStateM.bind_eq_ok_iff]
  constructor
  · intro hx
    obtain ⟨a, left, h1, h2⟩ := hx
    obtain ⟨cs, rfl, hF⟩ := (hr _ _ _).1 h1
    obtain ⟨ds, rfl, hG⟩ := (hf a _ _ _).1 h2
    exact ⟨cs ++ ds, (List.append_assoc ..).symm, a, cs, ds, rfl, hF, hG⟩
  · intro hx
    obtain ⟨_, rfl, a, cs, ds, rfl, hF, hG⟩ := hx
    refine ⟨a, ds ++ rest, (hr _ _ _).2 ⟨cs, List.append_assoc .., hF⟩, ?_⟩
    exact (hf a _ _ _).2 ⟨ds, rfl, hG⟩

theorem Accepts.map {r : Reader α} {F : Bytes → α → Prop} (h : r.Accepts F) (f : α → β) :
    (f <$> r).Accepts fun bs b => ∃ a, F bs a ∧ b = f a := by
  have h1 : (f <$> r) = r >>= fun a => pure (f a) := (bind_pure_comp f r).symm
  rw [h1]
  refine (h.bind fun a => accepts_pure (f a)).congr fun bs b => ?_
  constructor
  · intro hx
    obtain ⟨a, cs, ds, rfl, hF, rfl, rfl⟩ := hx
    exact ⟨a, by rwa [List.append_nil], rfl⟩
  · intro hx
    obtain ⟨a, hF, rfl⟩ := hx
    exact ⟨a, bs, [], (List.append_nil bs).symm, hF, rfl, rfl⟩

theorem Accepts.ite {c : Prop} [Decidable c] {r s : Reader α} {F G : Bytes → α → Prop}
    (hr : r.Accepts F) (hs : s.Accepts G) :
    (if c then r else s).Accepts fun bs a => if c then F bs a else G bs a := by
  by_cases h : c
  · simpa only [if_pos h] using hr
  · simpa only [if_neg h] using hs

/-! ### fixed widths -/

theorem accepts_bytes (n : Nat) : (bytes n).Accepts fun bs a => bs.length = n ∧ a = bs := by
  intro input a rest
  constructor
  · intro h
    by_cases hn : n ≤ input.length
    · rw [bytes_of_le hn] at h
      injection h with h1 h2
      subst h1 h2
      exact ⟨_, (List.take_append_drop n input).symm, List.length_take_of_le hn, rfl⟩
    · rw [bytes_of_lt (Nat.lt_of_not_le hn)] at h
      cases h
  · intro hx
    obtain ⟨bs, rfl, rfl, rfl⟩ := hx
    exact bytes_append _ _

theorem accepts_u8 : u8.Accepts fun bs a => bs = [a] := by
  intro input a rest
  cases input with
  | nil =>
    constructor
    · intro h
      cases h
    · intro hx
      obtain ⟨bs, h, rfl⟩ := hx
      cases h
  | cons b rest' =>
    constructor
    · intro h
      injection h with h1 h2
      subst h1 h2
      exact ⟨[b], rfl, rfl⟩
    · intro hx
      obtain ⟨bs, h, rfl⟩ := hx
      injection h with h1 h2
      subst h1 h2
      rfl

theorem accepts_word (n : Nat) (f : Bytes → α) :
    (f <$> bytes n).Accepts fun bs a => bs.length = n ∧ a = f bs := by
  refine ((accepts_bytes n).map f).congr fun bs a => ?_
  constructor
  · intro h
    obtain ⟨_, ⟨hl, rfl⟩, ha⟩ := h
    exact ⟨hl, ha⟩
  · intro h
    exact ⟨bs, ⟨h.1, rfl⟩, h.2⟩

theorem accepts_int32 : int32.Accepts fun bs n => bs.length = 4 ∧ n = Bytes.toInt32 bs :=
  accepts_word 4 Bytes.toInt32

theorem accepts_int64 : int64.Accepts fun bs n => bs.length = 8 ∧ n = Bytes.toInt64 bs :=
  accepts_word 8 Bytes.toInt64

theorem accepts_double : double.Accepts fun bs d => bs.length = 8 ∧ d = ⟨Bytes.toUInt64 bs⟩ :=
  accepts_word 8 fun bs => Double.mk (Bytes.toUInt64 bs)

/-! ### texts -/

theorem accepts_text (bs : Bytes) : (text bs).Accepts fun cs s => cs = [] ∧ ofUtf8? bs = some s :=
  accepts_of_stay fun input s rest => by
    unfold text
    cases ofUtf8? bs <;> simp [and_comm]

theorem accepts_cstring : cstring.Accepts IsName := by
  intro input s rest
  have upTo : ∀ bs : Bytes, (0 ∉ bs) ↔ ∀ b ∈ bs, (b != 0) = true := by
    intro bs
    exact ⟨fun h b hb => by simpa using fun h0 : b = 0 => h (h0 ▸ hb),
      fun h h0 => by simpa using h 0 h0⟩
  constructor
  · intro h
    have split := input.takeWhile_append_dropWhile (p := (· != 0))
    have stop := List.head?_dropWhile_not (· != 0) input
    unfold cstring at h
    cases hd : input.dropWhile (· != 0) with
    | nil => simp [hd] at h
    | cons b after =>
      simp only [hd, List.head?_cons, bne_eq_false_iff_eq] at h stop
      cases hs : ofUtf8? (input.takeWhile (· != 0)) with
      | none => simp [hs] at h
      | some s' =>
        simp only [hs] at h
        injection h with h1 h2
        subst h1 h2 stop
        have hu := utf8_of_ofUtf8? hs
        rw [hd, ← hu] at split
        refine ⟨utf8 s' ++ [0], by rw [← split]; simp, .mk ((upTo _).2 fun b hb => ?_)⟩
        rw [hu] at hb
        exact List.all_eq_true.1 List.all_takeWhile b hb
  · intro hx
    obtain ⟨_, rfl, ⟨h0⟩⟩ := hx
    have hi : (utf8 s ++ [0]) ++ rest = utf8 s ++ 0 :: rest := by simp
    have front := (upTo _).1 h0
    unfold cstring
    rw [hi, List.takeWhile_append_of_pos front, List.dropWhile_append_of_pos front]
    simp

/-- bytes that end in a zero byte are read as the text before it -/
theorem accepts_terminated (n : Nat) :
    (bytes n >>= fun bs =>
      if bs.getLast? = some 0 then text bs.dropLast else fail .missingNul).Accepts
        fun bs s => bs.length = n ∧ bs = utf8 s ++ [0] := by
  refine ((accepts_bytes n).bind fun bs =>
    (accepts_text bs.dropLast).ite (accepts_fail .missingNul)).congr fun bs s => ⟨?_, ?_⟩
  · intro hx
    obtain ⟨cs, _, ds, rfl, ⟨width, rfl⟩, h⟩ := hx
    by_cases last : cs.getLast? = some 0
    · rw [if_pos last] at h
      obtain ⟨rfl, hs⟩ := h
      obtain ⟨ys, rfl⟩ := List.getLast?_eq_some_iff.1 last
      rw [List.dropLast_concat] at hs
      rw [List.append_nil, utf8_of_ofUtf8? hs]
      exact ⟨width, rfl⟩
    · rw [if_neg last] at h
      exact h.elim
  · intro hx
    obtain ⟨width, rfl⟩ := hx
    exact ⟨_, _, [], (List.append_nil _).symm, ⟨width, rfl⟩, by simp⟩

theorem accepts_string : string.Accepts IsString := by
  have all := accepts_int32.bind fun n =>
    (accepts_fail (.invalidLength n.toInt)).ite (c := n < 0)
      ((accepts_pure "").ite (c := n = 0) (accepts_terminated n.toInt.toNat))
  refine all.congr fun bs s => ⟨?_, ?_⟩
  · intro hx
    obtain ⟨n, w, cs, rfl, ⟨hw, rfl⟩, h⟩ := hx
    by_cases negative : Bytes.toInt32 w < 0
    · rw [if_pos negative] at h
      exact h.elim
    rw [if_neg negative] at h
    by_cases zero : Bytes.toInt32 w = 0
    · rw [if_pos zero] at h
      obtain ⟨rfl, rfl⟩ := h
      rw [List.append_nil]
      exact .zero ⟨hw, by rw [zero]; rfl⟩
    rw [if_neg zero] at h
    obtain ⟨width, rfl⟩ := h
    refine .text ⟨hw, ?_⟩
    rw [List.length_append, List.length_singleton] at width
    omega
  · intro h
    cases h with
    | @text w s h =>
      have negative : ¬ Bytes.toInt32 w < 0 := by
        rw [Int32.lt_iff_toInt_lt, h.2, Int32.toInt_zero]
        omega
      have zero : ¬ Bytes.toInt32 w = 0 := by
        rw [← Int32.toInt_inj, h.2, Int32.toInt_zero]
        omega
      refine ⟨_, w, _, rfl, ⟨h.1, rfl⟩, ?_⟩
      rw [if_neg negative, if_neg zero, h.2, List.length_append, List.length_singleton]
      exact ⟨rfl, rfl⟩
    | zero h =>
      have zero : Bytes.toInt32 bs = 0 := by
        rw [← Int32.toInt_inj, h.2, Int32.toInt_zero]
        rfl
      refine ⟨_, bs, [], (List.append_nil _).symm, ⟨h.1, rfl⟩, ?_⟩
      rw [zero]
      exact ⟨rfl, rfl⟩

/-! ### whole documents -/

theorem accepts_documentBytes : documentBytes.Accepts fun bs a => Delimited bs ∧ a = bs := by
  intro input a rest
  unfold documentBytes
  constructor
  · intro h
    cases hi : int32 input with
    | error e left => simp [hi] at h
    | ok n left =>
      simp only [hi] at h
      obtain ⟨w, rfl, hw, rfl⟩ := (accepts_int32 _ _ _).1 hi
      by_cases small : (Bytes.toInt32 w).toInt < smallestDocument
      · rw [if_pos small] at h
        cases h
      · rw [if_neg small] at h
        obtain ⟨_, hbs, hl, rfl⟩ := (accepts_bytes _ _ _ _).1 h
        unfold smallestDocument at small
        have hn : (a.length : Int) = (Bytes.toInt32 w).toInt := by omega
        have ht : a.take 4 = w := by
          have h1 := congrArg (List.take 4) hbs
          rw [List.take_left' hw, List.take_append_of_le_length (by omega)] at h1
          exact h1.symm
        refine ⟨a, hbs, ⟨?_, ?_⟩, rfl⟩
        · unfold smallestDocument
          omega
        · rw [ht]
          exact ⟨hw, hn.symm⟩
  · intro hx
    obtain ⟨bs, rfl, ⟨small, hl⟩, rfl⟩ := hx
    have hi : int32 (a ++ rest) = .ok (Bytes.toInt32 (a.take 4)) (a.drop 4 ++ rest) := by
      refine (accepts_int32 _ _ _).2 ⟨a.take 4, ?_, hl.1, rfl⟩
      rw [← List.append_assoc, List.take_append_drop]
    have h1 : ¬ (a.length : Int) < smallestDocument := by omega
    simp only [hi, hl.2, if_neg h1, Int.toNat_natCast, bytes_append]

end Reader

end Bson
