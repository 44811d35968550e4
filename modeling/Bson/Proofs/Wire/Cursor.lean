import Mathlib.Algebra.Group.Int.Defs
import Bson.Proofs.Result
import Bson.Proofs.Wire.Formats

/-!
# Reading by position

The readers once more, on a byte string that stays whole and a position in it, in the arithmetic of
64-bit words. Everything that a machine can fail at is an operation with an outcome for it: a sum
that is too large, a difference below zero, an index or a slice that is out of range.

* `Machine.add?`, `Machine.sub?`, `Machine.slice?`, `Machine.splitAt?`  the partial operations, with
                        `xs[i]?` for an index;
* `Cursor`              a step at a position: `none` where the machine fails, otherwise a value or an
                        error, and the position after it;
* `Cursor.bytes`, `Cursor.u8`, `Cursor.int32`, `Cursor.cstring`, `Cursor.string`,
  `Cursor.documentBytes`  the readers;
* `Cursor.Tracks`       the machine does not fail, the position stays in range and does not go
                        back, and the step gives what a `Reader` gives on the bytes behind the
                        position, and leaves what that leaves;
* `Cursor.Tracks.bind`, `Cursor.Tracks.map`  steps that track one after another;
* `Cursor.Ends`         the machine does not fail, and the step gives an answer, wherever it stops.
-/

namespace Bson

/-! ### what a machine can fail at -/

namespace Machine

/-- sums below 2 ^ 64 -/
def add? (a b : Nat) : Option Nat := if a + b < 2 ^ 64 then some (a + b) else none

/-- differences that are not below zero -/
def sub? (a b : Nat) : Option Nat := if b ≤ a then some (a - b) else none

def slice? (bs : Bytes) (start stop : Nat) : Option Bytes :=
  if start ≤ stop ∧ stop ≤ bs.length then some ((bs.take stop).drop start) else none

def splitAt? (bs : Bytes) (n : Nat) : Option (Bytes × Bytes) :=
  if n ≤ bs.length then some (bs.take n, bs.drop n) else none

def copy? (n : Nat) (bs : Bytes) : Option Bytes := if bs.length = n then some bs else none

/-- a signed word as an unsigned one of 64 bits: what is below zero becomes large -/
def ofInt32 (n : Int32) : Nat := (n.toInt % 2 ^ 64).toNat

theorem add?_eq {a b : Nat} (h : a + b < 2 ^ 64) : add? a b = some (a + b) := if_pos h

theorem sub?_eq {a b : Nat} (h : b ≤ a) : sub? a b = some (a - b) := if_pos h

theorem slice?_eq {bs : Bytes} {start stop : Nat} (h : start ≤ stop) (h' : stop ≤ bs.length) :
    slice? bs start stop = some ((bs.take stop).drop start) := if_pos ⟨h, h'⟩

example : slice? [7, 8, 9] 1 4 = none := rfl

theorem splitAt?_eq {bs : Bytes} {n : Nat} (h : n ≤ bs.length) :
    splitAt? bs n = some (bs.take n, bs.drop n) := if_pos h

theorem copy?_eq {n : Nat} {bs : Bytes} (h : bs.length = n) : copy? n bs = some bs := if_pos h

theorem ofInt32_eq {n : Int32} (h : 0 ≤ n.toInt) : ofInt32 n = n.toInt.toNat := by
  have := n.toInt_lt
  rw [ofInt32]
  omega

end Machine

open Machine

abbrev Cursor := ReaderT Bytes (ExceptT Error (StateT Nat Option))

namespace Cursor

variable {α β : Type}

/-! ### steps -/

def position : Cursor Nat := fun _ pos => some (.ok pos, pos)

def moveTo (next : Nat) : Cursor Unit := fun _ _ => some (.ok (), next)

/-- an operation that the machine can fail at -/
def machine (outcome : Option α) : Cursor α := fun _ pos => outcome.map fun a => (.ok a, pos)

def refuse (f : Fault) : Cursor α := fun _ pos => some (.error f.error, pos)

/-- a result that was found without reading; the machine may fail at it -/
def lift (result : Option (Except Error α)) : Cursor α := fun _ pos => result.map fun r => (r, pos)

def within (name : String) (c : Cursor α) : Cursor α := fun data pos =>
  match c data pos with
  | some (.error e, next) => some (.error (e.within name), next)
  | other => other

/-- what a step gives at the start of a byte string -/
def run (c : Cursor α) (data : Bytes) : Option (Except Error α) := (c data 0).map Prod.fst

/-! ### readers -/

def remaining : Cursor Nat := do
  let data ← read
  let pos ← position
  machine (sub? data.length pos)

def bytes (n : Nat) : Cursor Bytes := do
  let left ← remaining
  if left < n then refuse .unexpectedEof
  else
    let pos ← position
    let stop ← machine (add? pos n)
    let data ← read
    let bs ← machine (slice? data pos stop)
    moveTo stop
    return bs

def array (n : Nat) : Cursor Bytes := do
  let bs ← bytes n
  machine (copy? n bs)

def u8 : Cursor UInt8 := do
  let bs ← array 1
  machine bs[0]?

def int32 : Cursor Int32 := Bytes.toInt32 <$> array 4

def int64 : Cursor Int64 := Bytes.toInt64 <$> array 8

def double : Cursor Double := (fun bs => ⟨Bytes.toUInt64 bs⟩) <$> array 8

def text (bs : Bytes) : Cursor String :=
  match ofUtf8? bs with
  | some s => pure s
  | none => refuse .invalidUtf8

def cstring : Cursor String := do
  let data ← read
  let pos ← position
  let rest ← machine (slice? data pos data.length)
  match rest.findIdx? (· == 0) with
  | none => refuse .missingNul
  | some stop =>
    let bs ← machine (slice? rest 0 stop)
    let s ← text bs
    let taken ← machine (add? stop 1)
    let next ← machine (add? pos taken)
    moveTo next
    return s

def string : Cursor String := do
  let n ← int32
  if n < 0 then refuse (.invalidLength n.toInt)
  else if n = 0 then return ""
  else
    let bs ← bytes (ofInt32 n)
    let front ← machine (sub? bs.length 1)
    let (payload, terminator) ← machine (splitAt? bs front)
    let last ← machine terminator[0]?
    if last ≠ 0 then refuse .missingNul else text payload

def documentBytes : Cursor Bytes := do
  let start ← position
  let n ← int32
  if n.toInt < Reader.smallestDocument then refuse (.invalidLength n.toInt)
  else
    moveTo start
    bytes (ofInt32 n)

/-! ### tracking a reader -/

/-- at a position in a byte string, the machine does not fail at the step, the position stays in
range and does not go back, and the step gives and leaves what the reader does on the bytes behind
the position -/
def Tracks (data : Bytes) (pos : Nat) (c : Cursor α) (r : Reader α) : Prop :=
  ∃ next, pos ≤ next ∧ next ≤ data.length ∧
    c data pos = some (r.result (data.drop pos), next) ∧
      r.remainder (data.drop pos) = data.drop next

theorem bind_apply (c : Cursor α) (f : α → Cursor β) (data : Bytes) (pos : Nat) :
    (c >>= f) data pos = match c data pos with
      | none => none
      | some (.error e, next) => some (.error e, next)
      | some (.ok a, next) => f a data next := by
  show (c data pos).bind _ = _
  rcases c data pos with _ | ⟨_ | _, _⟩ <;> rfl

variable {data : Bytes} {pos : Nat} {c : Cursor α} {r : Reader α}

theorem tracks_of_ok {a : α} {next : Nat} (forward : pos ≤ next) (inside : next ≤ data.length)
    (step : c data pos = some (.ok a, next)) (read : r (data.drop pos) = .ok a (data.drop next)) :
    Tracks data pos c r :=
  ⟨next, forward, inside, by rw [step, Reader.result, read], by rw [Reader.remainder, read]⟩

theorem tracks_of_error {e : Error} {next : Nat} (forward : pos ≤ next)
    (inside : next ≤ data.length) (step : c data pos = some (.error e, next))
    (read : r (data.drop pos) = .error e (data.drop next)) : Tracks data pos c r :=
  ⟨next, forward, inside, by rw [step, Reader.result, read], by rw [Reader.remainder, read]⟩

/-- what a step that tracks a reader does, with the reader's own answer -/
theorem Tracks.cases (h : Tracks data pos c r) :
    ∃ next, pos ≤ next ∧ next ≤ data.length ∧
      ((∃ a, c data pos = some (.ok a, next) ∧ r (data.drop pos) = .ok a (data.drop next)) ∨
        ∃ e, c data pos = some (.error e, next) ∧ r (data.drop pos) = .error e (data.drop next)) := by
  obtain ⟨next, forward, inside, step, left⟩ := h
  refine ⟨next, forward, inside, ?_⟩
  rw [Reader.result] at step
  rw [Reader.remainder] at left
  cases read : r (data.drop pos) with
  | ok a rest =>
    rw [read] at step left
    exact .inl ⟨a, step, by rw [← left]⟩
  | error e rest =>
    rw [read] at step left
    exact .inr ⟨e, step, by rw [← left]⟩

/-- only what the reader does at the position counts -/
theorem Tracks.congr {r' : Reader α} (h : Tracks data pos c r)
    (same : r (data.drop pos) = r' (data.drop pos)) : Tracks data pos c r' := by
  rw [Tracks, Reader.result, Reader.remainder, same] at h
  exact h

theorem Tracks.bind {f : α → Cursor β} {g : α → Reader β} (h : Tracks data pos c r)
    (more : ∀ a next, pos ≤ next → next ≤ data.length →
      r (data.drop pos) = .ok a (data.drop next) → Tracks data next (f a) (g a)) :
    Tracks data pos (c >>= f) (r >>= g) := by
  obtain ⟨next, forward, inside, ⟨a, step, read⟩ | ⟨e, step, read⟩⟩ := h.cases
  · obtain ⟨last, forward', inside', step', left⟩ := more a next forward inside read
    refine ⟨last, Nat.le_trans forward forward', inside', ?_, ?_⟩
    · rw [bind_apply, step, Reader.result, EStateM.bind_apply, read]
      exact step'
    · rw [Reader.remainder, EStateM.bind_apply, read]
      exact left
  · refine tracks_of_error (e := e) forward inside ?_ ?_
    · rw [bind_apply, step]
    · rw [EStateM.bind_apply, read]

theorem tracks_pure (a : α) (inside : pos ≤ data.length) :
    Tracks data pos (pure a) (pure a) :=
  tracks_of_ok (Nat.le_refl _) inside rfl rfl

theorem tracks_refuse (f : Fault) (inside : pos ≤ data.length) :
    Tracks data pos (refuse f : Cursor α) (Reader.fail f) :=
  tracks_of_error (Nat.le_refl _) inside rfl rfl

theorem Tracks.map (h : Tracks data pos c r) (f : α → β) :
    Tracks data pos (f <$> c) (f <$> r) := by
  have h1 : (f <$> c) = c >>= fun a => pure (f a) := (bind_pure_comp f c).symm
  have h2 : (f <$> r) = r >>= fun a => pure (f a) := (bind_pure_comp f r).symm
  rw [h1, h2]
  exact h.bind fun a next _ inside _ => tracks_pure (f a) inside

theorem tracks_lift {result : Option (Except Error α)} {answer : Except Error α}
    (h : result = some answer) (inside : pos ≤ data.length) :
    Tracks data pos (lift result) (Reader.lift answer) := by
  cases answer with
  | ok a =>
    refine tracks_of_ok (a := a) (Nat.le_refl _) inside ?_ rfl
    rw [lift, h]
    rfl
  | error e =>
    refine tracks_of_error (e := e) (Nat.le_refl _) inside ?_ rfl
    rw [lift, h]
    rfl

def Ends (data : Bytes) (pos : Nat) (c : Cursor α) (answer : Except Error α) : Prop :=
  (c data pos).map Prod.fst = some answer

theorem Tracks.ends (h : Tracks data pos c r) : Ends data pos c (r.result (data.drop pos)) := by
  obtain ⟨next, -, -, step, -⟩ := h
  rw [Ends, step, Option.map_some]

/-- a step that tracks a reader ends where the reader fails, or with what follows it -/
theorem Tracks.ends_bind {f : α → Cursor β} {answer : Except Error β} (h : Tracks data pos c r)
    (failed : ∀ e next, r (data.drop pos) = .error e (data.drop next) → answer = .error e)
    (more : ∀ a next, pos ≤ next → next ≤ data.length →
      r (data.drop pos) = .ok a (data.drop next) → Ends data next (f a) answer) :
    Ends data pos (c >>= f) answer := by
  obtain ⟨next, forward, inside, ⟨a, step, read⟩ | ⟨e, step, read⟩⟩ := h.cases
  · have ends := more a next forward inside read
    rw [Ends] at ends ⊢
    rw [bind_apply, step]
    exact ends
  · rw [Ends, bind_apply, step, failed e next read]
    rfl

theorem Tracks.ends_within {f : α → Cursor β} {answer : Except Error β} {name : String}
    (h : Tracks data pos c r)
    (failed : ∀ e next, r (data.drop pos) = .error e (data.drop next) →
      answer = .error (e.within name))
    (more : ∀ a next, pos ≤ next → next ≤ data.length →
      r (data.drop pos) = .ok a (data.drop next) → Ends data next (f a) answer) :
    Ends data pos (Cursor.within name c >>= f) answer := by
  obtain ⟨next, forward, inside, ⟨a, step, read⟩ | ⟨e, step, read⟩⟩ := h.cases
  · have ends := more a next forward inside read
    rw [Ends] at ends ⊢
    rw [bind_apply, Cursor.within, step]
    exact ends
  · rw [Ends, bind_apply, Cursor.within, step, failed e next read]
    rfl

theorem Ends.map {answer : Except Error α} (h : Ends data pos c answer) (f : α → β) :
    Ends data pos (f <$> c) (answer.map f) := by
  rw [Ends] at h ⊢
  show Option.map Prod.fst ((c data pos).bind _) = _
  cases step : c data pos with
  | none => rw [step] at h; cases h
  | some p =>
    rw [step] at h
    obtain ⟨_ | _, next⟩ := p <;> cases h <;> rfl

/-! ### steps that the reader does not take -/

section

variable {β : Type} {f : β → Cursor α}

theorem tracks_machine {outcome : Option β} {b : β} (h : outcome = some b)
    (more : Tracks data pos (f b) r) : Tracks data pos (machine outcome >>= f) r := by
  obtain ⟨next, forward, inside, step, left⟩ := more
  refine ⟨next, forward, inside, ?_, left⟩
  rw [bind_apply, machine, h]
  exact step

theorem tracks_position {f : Nat → Cursor α} (more : Tracks data pos (f pos) r) :
    Tracks data pos (position >>= f) r := by
  obtain ⟨next, forward, inside, step, left⟩ := more
  exact ⟨next, forward, inside, by rw [bind_apply]; exact step, left⟩

theorem tracks_read {f : Bytes → Cursor α} (more : Tracks data pos (f data) r) :
    Tracks data pos (read >>= f) r := by
  obtain ⟨next, forward, inside, step, left⟩ := more
  exact ⟨next, forward, inside, by rw [bind_apply]; exact step, left⟩

end

theorem tracks_outcome {outcome : Option α} {a : α} (h : outcome = some a)
    (inside : pos ≤ data.length) : Tracks data pos (machine outcome) (pure a) := by
  refine tracks_of_ok (a := a) (Nat.le_refl _) inside ?_ rfl
  rw [machine, h]
  rfl

/-! ### the readers -/

theorem remaining_apply (inside : pos ≤ data.length) :
    remaining data pos = some (.ok (data.drop pos).length, pos) := by
  show (sub? data.length pos).map _ = _
  rw [sub?_eq inside, List.length_drop]
  rfl

theorem tracks_remaining {f : Nat → Cursor α} (inside : pos ≤ data.length)
    (more : Tracks data pos (f (data.drop pos).length) r) :
    Tracks data pos (remaining >>= f) r := by
  obtain ⟨next, forward, inside', step, left⟩ := more
  refine ⟨next, forward, inside', ?_, left⟩
  rw [bind_apply, remaining_apply inside]
  exact step

section

variable (inside : pos ≤ data.length) (word : data.length < 2 ^ 64)
include inside word

omit word in
/-- where what is left may be longer than a word can say, the position after the bytes is not -/
theorem tracks_bytes (n : Nat) (word : min (pos + n) data.length < 2 ^ 64) :
    Tracks data pos (bytes n) (Reader.bytes n) := by
  refine tracks_remaining inside ?_
  by_cases short : (data.drop pos).length < n
  · rw [if_pos short]
    exact tracks_of_error (Nat.le_refl _) inside rfl (Reader.bytes_of_lt short)
  · have enough : n ≤ (data.drop pos).length := Nat.le_of_not_lt short
    have stop : pos + n ≤ data.length := by
      rw [List.length_drop] at enough
      omega
    have slice : (data.take (pos + n)).drop pos = (data.drop pos).take n := by
      rw [List.drop_take, Nat.add_sub_cancel_left]
    rw [if_neg short]
    refine tracks_position (tracks_machine (add?_eq (by omega)) (tracks_read (tracks_machine
      (slice?_eq (Nat.le_add_right pos n) stop) ?_)))
    refine tracks_of_ok (Nat.le_add_right pos n) stop rfl ?_
    rw [slice, Reader.bytes_of_le enough, List.drop_drop]

omit word in
theorem tracks_array (n : Nat) (word : min (pos + n) data.length < 2 ^ 64) :
    Tracks data pos (array n) (Reader.bytes n) := by
  rw [← bind_pure (Reader.bytes n)]
  refine (tracks_bytes inside n word).bind fun bs next _ inside read => ?_
  obtain ⟨_, -, length, rfl⟩ := (Reader.accepts_bytes n _ _ _).1 read
  exact tracks_outcome (copy?_eq length) inside

theorem tracks_u8 : Tracks data pos u8 Reader.u8 := by
  have one : Reader.u8 = Reader.bytes 1 >>= fun bs => pure (bs.headD 0) := by
    funext rest
    cases rest <;> rfl
  rw [one]
  refine (tracks_array inside 1 (by omega)).bind fun bs next _ inside read => ?_
  obtain ⟨_, -, length, rfl⟩ := (Reader.accepts_bytes 1 _ _ _).1 read
  obtain ⟨b, rfl⟩ := List.length_eq_one_iff.1 length
  exact tracks_outcome rfl inside

theorem tracks_int32 : Tracks data pos int32 Reader.int32 := (tracks_array inside 4 (by omega)).map _

theorem tracks_int64 : Tracks data pos int64 Reader.int64 := (tracks_array inside 8 (by omega)).map _

theorem tracks_double : Tracks data pos double Reader.double := (tracks_array inside 8 (by omega)).map _

theorem tracks_cstring : Tracks data pos cstring Reader.cstring := by
  have rest : slice? data pos data.length = some (data.drop pos) := by
    rw [slice?_eq inside (Nat.le_refl _), List.take_length]
  have zero : (fun b : UInt8 => !(b != 0)) = (· == 0) := by
    funext b
    exact Bool.not_not _
  refine tracks_read (tracks_position (tracks_machine rest ?_))
  cases found : (data.drop pos).findIdx? (· == 0) with
  | none =>
    have whole := List.findIdx?_eq_none_iff_findIdx_eq.1 found
    refine tracks_of_error (Nat.le_refl _) inside rfl ?_
    rw [Reader.cstring, List.dropWhile_eq_drop_findIdx_not, zero, whole, List.drop_length]
  | some stop =>
    obtain ⟨here, index⟩ := List.findIdx?_eq_some_iff_findIdx_eq.1 found
    have bound : pos + (stop + 1) ≤ data.length := by
      rw [List.length_drop] at here
      omega
    have front : slice? (data.drop pos) 0 stop = some ((data.drop pos).take stop) :=
      slice?_eq (Nat.zero_le _) (Nat.le_of_lt here)
    have behind : (data.drop pos).dropWhile (· != 0) =
        (data.drop pos)[stop] :: data.drop (pos + (stop + 1)) := by
      rw [List.dropWhile_eq_drop_findIdx_not, zero, index, List.drop_eq_getElem_cons here,
        List.drop_drop]
    have before : (data.drop pos).takeWhile (· != 0) = (data.drop pos).take stop := by
      rw [List.takeWhile_eq_take_findIdx_not, zero, index]
    refine tracks_machine front ?_
    unfold text
    cases spelt : ofUtf8? ((data.drop pos).take stop) with
    | none =>
      refine tracks_of_error (Nat.le_refl _) inside rfl ?_
      simp only [Reader.cstring, behind, before, spelt]
    | some s =>
      refine tracks_machine (add?_eq (by omega)) (tracks_machine (add?_eq (by omega)) ?_)
      refine tracks_of_ok (Nat.le_add_right ..) bound rfl ?_
      simp only [Reader.cstring, behind, before, spelt]

omit word in
theorem tracks_text (bs : Bytes) : Tracks data pos (text bs) (Reader.text bs) := by
  rw [text]
  cases spelt : ofUtf8? bs with
  | some s =>
    refine tracks_of_ok (a := s) (Nat.le_refl _) inside rfl ?_
    rw [Reader.text, spelt]
  | none =>
    refine tracks_of_error (Nat.le_refl _) inside rfl ?_
    rw [Reader.text, spelt]

theorem tracks_string : Tracks data pos string Reader.string := by
  refine (tracks_int32 inside word).bind fun n next _ inside _ => ?_
  by_cases negative : n < 0
  · rw [if_pos negative, if_pos negative]
    exact tracks_refuse _ inside
  by_cases empty : n = 0
  · rw [if_neg negative, if_neg negative, if_pos empty, if_pos empty]
    exact tracks_pure _ inside
  rw [if_neg negative, if_neg negative, if_neg empty, if_neg empty]
  rw [Int32.lt_iff_toInt_lt, Int32.toInt_zero] at negative
  rw [← Int32.toInt_inj, Int32.toInt_zero] at empty
  rw [ofInt32_eq (Int.not_lt.1 negative)]
  refine (tracks_bytes inside _ (by omega)).bind fun bs next _ inside read => ?_
  obtain ⟨_, -, length, rfl⟩ := (Reader.accepts_bytes _ _ _ _).1 read
  -- a length above zero leaves a last byte to look at
  obtain ⟨front, last, rfl⟩ := List.eq_nil_or_concat bs |>.resolve_left (by
    rintro rfl
    rw [List.length_nil] at length
    omega)
  rw [List.concat_eq_append] at length ⊢
  have split : sub? (front ++ [last]).length 1 = some front.length := by
    rw [sub?_eq (by simp), List.length_append, List.length_singleton, Nat.add_sub_cancel]
  refine tracks_machine split (tracks_machine (splitAt?_eq (by simp)) ?_)
  rw [List.take_left, List.drop_left, List.getLast?_concat, List.dropLast_concat]
  refine tracks_machine (b := last) rfl ?_
  by_cases zero : last = 0
  · rw [if_neg (not_not_intro zero), if_pos (congrArg some zero)]
    exact tracks_text inside front
  · rw [if_pos zero, if_neg (fun h => zero (Option.some.inj h))]
    exact tracks_refuse _ inside

theorem tracks_documentBytes : Tracks data pos documentBytes Reader.documentBytes := by
  refine tracks_position ?_
  obtain ⟨next, forward, bound, ⟨n, step, read⟩ | ⟨e, step, read⟩⟩ := (tracks_int32 inside word).cases
  · by_cases small : n.toInt < Reader.smallestDocument
    · refine tracks_of_error forward bound (e := (Fault.invalidLength n.toInt).error) ?_ ?_
      · rw [bind_apply, step]
        simp only [if_pos small]
        rfl
      · rw [Reader.documentBytes, read]
        simp only [if_pos small]
    · have positive : 0 ≤ n.toInt := by
        rw [Reader.smallestDocument] at small
        omega
      obtain ⟨next, forward, bound, step', left⟩ := tracks_bytes inside n.toInt.toNat (by omega)
      have again : Reader.documentBytes (data.drop pos) =
          Reader.bytes n.toInt.toNat (data.drop pos) := by
        rw [Reader.documentBytes, read]
        simp only [if_neg small]
      refine ⟨next, forward, bound, ?_, ?_⟩
      · rw [bind_apply, step]
        simp only [if_neg small]
        rw [bind_apply, ofInt32_eq positive]
        rw [Reader.result, again]
        exact step'
      · rw [Reader.remainder, again]
        exact left
  · refine tracks_of_error forward bound (e := e) ?_ ?_
    · rw [bind_apply, step]
    · rw [Reader.documentBytes, read]

end

end Cursor

end Bson
