import Mathlib.Algebra.Group.Nat.Defs
import Bson.Proofs.Result
import Bson.Wire.Writer

/-!
# Writers that only append

`Writer.Appends w`: onto any buffer, `w` writes what it writes onto an empty one, and the buffer
before it stays, also when `w` fails. What such writers write is put together as they are:

* `Writer.written_seq`  one after the other;
* `Writer.written_within`  with the error seen from one level up;
* `Writer.written_measured`  with the length of all of it in front, if the length fits
                        (`Writer.measured`); a document is measured up to its terminator
                        (`Writer.enclosed_eq`).
-/

namespace Bson

namespace Writer

/-- onto any buffer, the bytes that go onto an empty one -/
def Appends (w : Writer Unit) : Prop :=
  ∀ before, w before = match w [] with
    | .ok _ out => .ok () (before ++ out)
    | .error e out => .error e (before ++ out)

def lengthBytes (n : Nat) : Bytes := Bytes.ofInt32 (Int32.ofNat n)

@[simp] theorem length_lengthBytes (n : Nat) : (lengthBytes n).length = 4 := Bytes.length_ofInt32 _

/-- a writer with the length of what it writes in front, the four bytes of the length included -/
def measured (w : Writer Unit) : Writer Unit := do
  let start ← reserve
  w
  patch start

theorem enclosed_eq (w : Writer Unit) : enclosed w = measured (w >>= fun _ => put [0]) := by
  unfold enclosed measured finish
  simp only [bind_assoc]

/-! ### appending -/

theorem appends_put (bs : Bytes) : Appends (put bs) := fun _ => rfl

theorem appends_pure : Appends (pure ()) := by
  intro before
  show _ = EStateM.Result.ok () (before ++ [])
  rw [List.append_nil]
  rfl

theorem appends_fail (f : Fault) : Appends (fail f) := by
  intro before
  show _ = EStateM.Result.error f.error (before ++ [])
  rw [List.append_nil]
  rfl

theorem Appends.seq {w w' : Writer Unit} (h : w.Appends) (h' : w'.Appends) :
    Appends (w >>= fun _ => w') := by
  intro before
  rw [EStateM.bind_apply, EStateM.bind_apply, h before]
  cases w [] with
  | error e out => rfl
  | ok _ out =>
    show w' (before ++ out) = match w' out with | .ok _ out => _ | .error e out => _
    rw [h' (before ++ out), h' out]
    cases w' [] with
    | ok _ out' => exact congrArg _ (List.append_assoc ..)
    | error e out' => exact congrArg _ (List.append_assoc ..)

theorem Appends.within {w : Writer Unit} (h : w.Appends) (name : String) :
    Appends (w.within name) := by
  intro before
  unfold Writer.within
  rw [h before]
  cases w [] <;> rfl

theorem length?_of_lt {n : Nat} (h : n < 2 ^ 31) : length? n = pure (Int32.ofNat n) := if_pos h

theorem length?_of_le {n : Nat} (h : 2 ^ 31 ≤ n) : length? n = fail (.invalidLength n) :=
  if_neg (Nat.not_lt.2 h)

theorem appends_length {n : Nat} {k : Int32 → Writer Unit} (h : ∀ i, (k i).Appends) :
    Appends (length? n >>= k) := by
  by_cases fits : n < 2 ^ 31
  · rw [length?_of_lt fits]
    exact h _
  · rw [length?_of_le (Nat.not_lt.1 fits)]
    exact appends_fail _

theorem appends_cstring (s : String) : Appends (cstring s) := by
  unfold cstring
  split
  · exact appends_fail _
  · exact appends_put _

theorem appends_string (s : String) : Appends (string s) :=
  appends_length fun _ => (appends_put _).seq (appends_put _)

/-- the length of what was appended, in the place that was reserved for it -/
theorem patch_apply (before out : Bytes) :
    patch before.length (before ++ ([0, 0, 0, 0] ++ out)) =
      if 4 + out.length < 2 ^ 31 then
        .ok () (before ++ (lengthBytes (4 + out.length) ++ out))
      else .error (Fault.invalidLength (4 + out.length : Nat)).error
        (before ++ ([0, 0, 0, 0] ++ out)) := by
  have total : (before ++ ([0, 0, 0, 0] ++ out)).length - before.length = 4 + out.length := by
    rw [List.length_append, Nat.add_sub_cancel_left, List.length_append]
    rfl
  unfold patch
  rw [total]
  by_cases fits : 4 + out.length < 2 ^ 31
  · rw [if_pos fits, length?_of_lt fits]
    show EStateM.Result.ok () _ = _
    rw [List.take_left, ← List.append_assoc before,
      List.drop_left' (by rw [List.length_append]; rfl), List.append_assoc]
    rfl
  · rw [if_neg fits, length?_of_le (Nat.not_lt.1 fits)]
    rfl

theorem measured_apply {w : Writer Unit} (h : w.Appends) (before : Bytes) :
    measured w before = match w [] with
      | .ok _ out =>
        if 4 + out.length < 2 ^ 31 then
          .ok () (before ++ (lengthBytes (4 + out.length) ++ out))
        else .error (Fault.invalidLength (4 + out.length : Nat)).error
          (before ++ ([0, 0, 0, 0] ++ out))
      | .error e out => .error e (before ++ ([0, 0, 0, 0] ++ out)) := by
  show (w >>= fun _ => patch before.length) (before ++ [0, 0, 0, 0]) = _
  rw [EStateM.bind_apply, h]
  cases w [] with
  | error e out => exact congrArg _ (List.append_assoc ..)
  | ok _ out =>
    show patch before.length (before ++ [0, 0, 0, 0] ++ out) = _
    rw [List.append_assoc, patch_apply]

theorem Appends.measured {w : Writer Unit} (h : w.Appends) : Appends (measured w) := by
  intro before
  rw [measured_apply h, measured_apply h]
  cases w [] with
  | error e out => rfl
  | ok _ out =>
    show (if _ then _ else _) = match (if _ then _ else _ : EStateM.Result Error Bytes Unit) with
      | .ok _ out => _ | .error e out => _
    split <;> rfl

theorem Appends.enclosed {w : Writer Unit} (h : w.Appends) : Appends (enclosed w) := by
  rw [enclosed_eq]
  exact (h.seq (appends_put _)).measured

/-! ### what is written -/

theorem written_put (bs : Bytes) : (put bs).written = .ok bs := rfl

theorem written_pure : (pure () : Writer Unit).written = .ok [] := rfl

theorem written_seq {w w' : Writer Unit} (h : w'.Appends) :
    (w >>= fun _ => w').written = do
      let out ← w.written
      let out' ← w'.written
      return out ++ out' := by
  unfold written
  rw [EStateM.bind_apply]
  cases w [] with
  | error e out => rfl
  | ok _ out =>
    show (match w' out with
      | .ok _ after => Except.ok after
      | .error e _ => Except.error e) = _
    rw [h out]
    cases w' [] <;> rfl

theorem written_within (name : String) (w : Writer Unit) :
    (w.within name).written = inField name w.written := by
  unfold written Writer.within
  cases w [] <;> rfl

theorem written_measured {w : Writer Unit} (h : w.Appends) :
    (measured w).written = w.written >>= fun out =>
      if 4 + out.length < 2 ^ 31 then .ok (lengthBytes (4 + out.length) ++ out)
      else .error (Fault.invalidLength (4 + out.length : Nat)).error := by
  unfold written
  rw [measured_apply h]
  cases w [] with
  | error e out => rfl
  | ok _ out =>
    by_cases fits : 4 + out.length < 2 ^ 31
    · simp only [if_pos fits]
      exact (if_pos fits).symm
    · simp only [if_neg fits]
      exact (if_neg fits).symm

/-! ### written without an error -/

theorem written_cstring_iff {s : String} {out : Bytes} :
    (cstring s).written = .ok out ↔ 0 ∉ utf8 s ∧ out = utf8 s ++ [0] := by
  unfold cstring
  by_cases h : 0 ∈ utf8 s
  · rw [if_pos h]
    exact ⟨nofun, fun h1 => absurd h h1.1⟩
  · rw [if_neg h, written_put, Except.ok.injEq, eq_comm]
    exact (and_iff_right h).symm

theorem written_seq_iff {w w' : Writer Unit} (h : w'.Appends) {all : Bytes} :
    (w >>= fun _ => w').written = .ok all ↔
      ∃ out out', w.written = .ok out ∧ w'.written = .ok out' ∧ all = out ++ out' := by
  rw [written_seq h, Except.bind_eq_ok_iff]
  constructor
  · intro hx
    obtain ⟨out, hw, h1⟩ := hx
    obtain ⟨out', hw', h2⟩ := Except.bind_eq_ok_iff.1 h1
    injection h2 with h2
    exact ⟨out, out', hw, hw', h2.symm⟩
  · intro hx
    obtain ⟨out, out', hw, hw', rfl⟩ := hx
    exact ⟨out, hw, Except.bind_eq_ok_iff.2 ⟨out', hw', rfl⟩⟩

theorem written_within_iff {name : String} {w : Writer Unit} {out : Bytes} :
    (w.within name).written = .ok out ↔ w.written = .ok out := by
  rw [written_within, inField_eq_ok_iff]

theorem written_measured_iff {w : Writer Unit} (h : w.Appends) {all : Bytes} :
    (measured w).written = .ok all ↔
      ∃ out, w.written = .ok out ∧ 4 + out.length < 2 ^ 31 ∧
        all = lengthBytes (4 + out.length) ++ out := by
  rw [written_measured h, Except.bind_eq_ok_iff]
  refine exists_congr fun out => and_congr_right fun _ => ?_
  by_cases fits : 4 + out.length < 2 ^ 31
  · rw [if_pos fits]
    show Except.ok _ = Except.ok _ ↔ _
    rw [Except.ok.injEq, eq_comm]
    exact (and_iff_right fits).symm
  · rw [if_neg fits]
    exact ⟨nofun, fun h1 => absurd h1.1 fits⟩

theorem written_enclosed_iff {w : Writer Unit} (h : w.Appends) {all : Bytes} :
    (enclosed w).written = .ok all ↔
      ∃ out, w.written = .ok out ∧ 4 + out.length + 1 < 2 ^ 31 ∧
        all = lengthBytes (4 + out.length + 1) ++ (out ++ [0]) := by
  rw [enclosed_eq, written_measured_iff (h.seq (appends_put _))]
  constructor
  · intro hx
    obtain ⟨_, h1, fits, rfl⟩ := hx
    obtain ⟨out, _, hw, h2, rfl⟩ := (written_seq_iff (appends_put _)).1 h1
    rw [written_put] at h2
    injection h2 with h2
    subst h2
    rw [List.length_append, List.length_singleton, ← Nat.add_assoc] at fits ⊢
    exact ⟨out, hw, fits, rfl⟩
  · intro hx
    obtain ⟨out, hw, fits, rfl⟩ := hx
    refine ⟨out ++ [0], (written_seq_iff (appends_put _)).2 ⟨out, [0], hw, rfl, rfl⟩, ?_⟩
    rw [List.length_append, List.length_singleton, ← Nat.add_assoc]
    exact ⟨fits, rfl⟩

theorem written_length_iff {n : Nat} {k : Int32 → Writer Unit} {out : Bytes} :
    (length? n >>= k).written = .ok out ↔
      n < 2 ^ 31 ∧ (k (Int32.ofNat n)).written = .ok out := by
  by_cases fits : n < 2 ^ 31
  · rw [length?_of_lt fits]
    exact (and_iff_right fits).symm
  · rw [length?_of_le (Nat.not_lt.1 fits)]
    exact ⟨nofun, fun h => absurd h.1 fits⟩

theorem written_string_iff {s : String} {out : Bytes} :
    (string s).written = .ok out ↔
      (utf8 s).length + 1 < 2 ^ 31 ∧
        out = lengthBytes ((utf8 s).length + 1) ++ (utf8 s ++ [0]) := by
  unfold string
  rw [written_length_iff]
  refine and_congr_right fun _ => ?_
  show Except.ok _ = Except.ok _ ↔ _
  rw [Except.ok.injEq, eq_comm]
  rfl

/-! ### not written -/

section

variable {w w' : Writer Unit} {e : Error}

theorem written_seq_of_first (h : w'.Appends) (failed : w.written = .error e) :
    (w >>= fun _ => w').written = .error e := by
  rw [written_seq h, failed]
  rfl

theorem written_seq_of_second (h : w'.Appends) {out : Bytes} (done : w.written = .ok out)
    (failed : w'.written = .error e) : (w >>= fun _ => w').written = .error e := by
  rw [written_seq h, done, failed]
  rfl

theorem written_within_of_error (failed : w.written = .error e) (name : String) :
    (w.within name).written = .error (e.within name) := by
  rw [written_within, failed, inField_error]

theorem written_measured_of_error (h : w.Appends) (failed : w.written = .error e) :
    (measured w).written = .error e := by
  rw [written_measured h, failed]
  rfl

theorem written_enclosed_of_error (h : w.Appends) (failed : w.written = .error e) :
    (enclosed w).written = .error e := by
  rw [enclosed_eq]
  exact written_measured_of_error (h.seq (appends_put _))
    (written_seq_of_first (appends_put _) failed)

theorem written_cstring_of_zero {s : String} (h : 0 ∈ utf8 s) :
    (cstring s).written = .error Fault.interiorNul.error := by
  rw [cstring, if_pos h]
  rfl

end

end Writer

end Bson
