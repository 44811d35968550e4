import Bson.Proofs.Wire.Cursor

/-!
# Calls on one cursor

A cursor that is kept answers one call after another: what a call leaves behind, also one that
fails midway, is where the next one starts.

* `ReadCall`, `Datum`   the calls there are, and what they give;
* `ReadCall.step`, `ReadCall.reader`  a call at a position, and on the bytes that are left;
* `Cursor.answers`      a sequence of calls, whatever their answers are, with the positions around
                        each;
* `Answered.Sound`      what is asked of one call: the position stays in range and does not go
                        back, what is given lies between the two positions, and a failure leaves the
                        position alone, unless a length was read first;
* `ReadCall.tracks`, `ReadCall.within_of_ok`, `ReadCall.undone`  what each kind of call does, and
                        `ReadCall.answered_sound` from them;
* `Cursor.answers_sound`  what any sequence of calls does, from the start of any byte string.
-/

namespace Bson

open Machine

inductive ReadCall
  | bytes (n : Nat)
  | u8
  | int32
  | int64
  | double
  | cstring
  | string
  | documentBytes
  deriving DecidableEq, Repr

inductive Datum
  | bytes (bs : Bytes)
  | byte (b : UInt8)
  | int32 (n : Int32)
  | int64 (n : Int64)
  | double (d : Double)
  | text (s : String)
  deriving DecidableEq, Repr

def Datum.source : Datum → Bytes
  | .bytes bs => bs
  | .byte b => [b]
  | .int32 n => Bytes.ofInt32 n
  | .int64 n => Bytes.ofInt64 n
  | .double d => Bytes.ofUInt64 d.bits
  | .text s => utf8 s

/-- a datum that stands in a byte string behind so many bytes -/
def Datum.Within (d : Datum) (lead : Nat) (bs : Bytes) : Prop :=
  ∃ front behind, bs = front ++ (d.source ++ behind) ∧ front.length = lead

namespace ReadCall

def step : ReadCall → Cursor Datum
  | bytes n => .bytes <$> Cursor.bytes n
  | u8 => .byte <$> Cursor.u8
  | int32 => .int32 <$> Cursor.int32
  | int64 => .int64 <$> Cursor.int64
  | double => .double <$> Cursor.double
  | cstring => .text <$> Cursor.cstring
  | string => .text <$> Cursor.string
  | documentBytes => .bytes <$> Cursor.documentBytes

def reader : ReadCall → Reader Datum
  | bytes n => .bytes <$> Reader.bytes n
  | u8 => .byte <$> Reader.u8
  | int32 => .int32 <$> Reader.int32
  | int64 => .int64 <$> Reader.int64
  | double => .double <$> Reader.double
  | cstring => .text <$> Reader.cstring
  | string => .text <$> Reader.string
  | documentBytes => .bytes <$> Reader.documentBytes

/-- how many bytes are read before the datum: a text may have its length in front -/
def lead : ReadCall → Nat
  | string => 4
  | _ => 0

/-- whether nothing stays read when the call fails: where a length stands in front, it may -/
def restores : ReadCall → Bool
  | string | documentBytes => false
  | _ => true

end ReadCall

/-- a call that was answered, between two positions -/
structure Answered where
  call : ReadCall
  before : Nat
  answer : Except Error Datum
  after : Nat

structure Answered.Sound (data : Bytes) (a : Answered) : Prop where
  forward : a.before ≤ a.after
  inside : a.after ≤ data.length
  left : ∀ pos ∈ [a.before, a.after],
    Cursor.remaining data pos = some (.ok (data.length - pos), pos)
  /-- the answer is the one of the reader on the bytes that were left -/
  reads : a.answer = a.call.reader.result (data.drop a.before)
  leaves : a.call.reader.remainder (data.drop a.before) = data.drop a.after
  between : ∀ d, a.answer = .ok d →
    ∃ span, slice? data a.before a.after = some span ∧ d.Within a.call.lead span
  restored : a.call.restores = true → ∀ e, a.answer = .error e → a.after = a.before

/-- calls one after another, whatever their answers are; none where the machine fails at one -/
def Cursor.answers (data : Bytes) : List ReadCall → Nat → Option (List Answered)
  | [], _ => some []
  | call :: calls, pos => do
    let (answer, next) ← call.step data pos
    let later ← answers data calls next
    return ⟨call, pos, answer, next⟩ :: later

/-! ### what a reader takes -/

namespace Reader

variable {α : Type}

def Undone (r : Reader α) : Prop := ∀ input e rest, r input = .error e rest → rest = input

theorem Undone.map {r : Reader α} {β : Type} (h : r.Undone) (f : α → β) : (f <$> r).Undone :=
  fun input e rest failed => h input e rest (EStateM.map_eq_error_iff.1 failed)

theorem undone_bytes (n : Nat) : (bytes n).Undone := by
  intro input e rest failed
  rw [bytes] at failed
  split at failed
  · cases failed
  · injection failed with _ left
    exact left.symm

theorem undone_u8 : u8.Undone := by
  intro input e rest failed
  cases input with
  | nil =>
    injection failed with _ left
    exact left.symm
  | cons b input => cases failed

theorem undone_cstring : cstring.Undone := by
  intro input e rest failed
  rw [cstring] at failed
  split at failed
  · injection failed with _ left
    exact left.symm
  · split at failed
    · cases failed
    · injection failed with _ left
      exact left.symm

/-- a datum stands in the bytes that it is read from if it stands in the bytes of the format -/
theorem Accepts.within {r : Reader α} {F : Bytes → α → Prop} (h : r.Accepts F) (f : α → Datum)
    {lead : Nat} (stands : ∀ bs a, F bs a → (f a).Within lead bs) {input rest : Bytes} {d : Datum}
    (read : (f <$> r) input = .ok d rest) : ∃ bs, input = bs ++ rest ∧ d.Within lead bs := by
  obtain ⟨bs, split, a, format, rfl⟩ := (h.map f _ _ _).1 read
  exact ⟨bs, split, stands bs a format⟩

end Reader

theorem Datum.within_of_source {d : Datum} {bs : Bytes} (h : d.source = bs) : d.Within 0 bs :=
  ⟨[], [], by rw [h, List.nil_append, List.append_nil], rfl⟩

/-! ### one call -/

namespace ReadCall

variable {data : Bytes} {pos : Nat}

theorem tracks (call : ReadCall) (inside : pos ≤ data.length) (word : data.length < 2 ^ 64) :
    Cursor.Tracks data pos call.step call.reader := by
  cases call with
  | bytes n => exact (Cursor.tracks_bytes inside n (by omega)).map _
  | u8 => exact (Cursor.tracks_u8 inside word).map _
  | int32 => exact (Cursor.tracks_int32 inside word).map _
  | int64 => exact (Cursor.tracks_int64 inside word).map _
  | double => exact (Cursor.tracks_double inside word).map _
  | cstring => exact (Cursor.tracks_cstring inside word).map _
  | string => exact (Cursor.tracks_string inside word).map _
  | documentBytes => exact (Cursor.tracks_documentBytes inside word).map _

theorem within_of_ok {call : ReadCall} {input rest : Bytes} {d : Datum}
    (read : call.reader input = .ok d rest) : ∃ bs, input = bs ++ rest ∧ d.Within call.lead bs := by
  cases call with
  | bytes n =>
    refine (Reader.accepts_bytes n).within .bytes (fun bs a format => ?_) read
    exact Datum.within_of_source format.2
  | u8 =>
    refine Reader.accepts_u8.within .byte (fun bs b format => ?_) read
    exact Datum.within_of_source format.symm
  | int32 =>
    refine Reader.accepts_int32.within .int32 (fun bs n format => Datum.within_of_source ?_) read
    rw [format.2]
    exact Bytes.ofInt32_toInt32 format.1
  | int64 =>
    refine Reader.accepts_int64.within .int64 (fun bs n format => Datum.within_of_source ?_) read
    rw [format.2]
    exact Bytes.ofInt64_toInt64 format.1
  | double =>
    refine Reader.accepts_double.within .double (fun bs x format => Datum.within_of_source ?_) read
    rw [format.2]
    exact Bytes.ofUInt64_toUInt64 format.1
  | cstring =>
    refine Reader.accepts_cstring.within .text (fun bs s format => ?_) read
    obtain ⟨-⟩ := format
    exact ⟨[], [0], rfl, rfl⟩
  | string =>
    refine Reader.accepts_string.within .text (fun bs s format => ?_) read
    cases format with
    | @text w s length => exact ⟨w, [0], rfl, length.1⟩
    | zero length => exact ⟨bs, [], (List.append_nil bs).symm, length.1⟩
  | documentBytes =>
    refine Reader.accepts_documentBytes.within .bytes (fun bs a format => ?_) read
    exact Datum.within_of_source format.2

theorem undone {call : ReadCall} (h : call.restores = true) : call.reader.Undone := by
  cases call with
  | bytes n => exact (Reader.undone_bytes n).map _
  | u8 => exact Reader.undone_u8.map _
  | int32 => exact ((Reader.undone_bytes 4).map _).map _
  | int64 => exact ((Reader.undone_bytes 8).map _).map _
  | double => exact ((Reader.undone_bytes 8).map _).map _
  | cstring => exact Reader.undone_cstring.map _
  | string => cases h
  | documentBytes => cases h

/-- one call, from any position in range -/
theorem answered_sound (call : ReadCall) (inside : pos ≤ data.length)
    (word : data.length < 2 ^ 64) :
    ∃ answer next, call.step data pos = some (answer, next) ∧
      Answered.Sound data ⟨call, pos, answer, next⟩ := by
  obtain ⟨next, forward, bound, outcome⟩ := (call.tracks inside word).cases
  have remains {p : Nat} (inside : p ≤ data.length) :
      Cursor.remaining data p = some (.ok (data.length - p), p) := by
    rw [Cursor.remaining_apply inside, List.length_drop]
  have left : ∀ p ∈ [pos, next], Cursor.remaining data p = some (.ok (data.length - p), p) :=
    List.forall_mem_cons.2 ⟨remains inside, List.forall_mem_singleton.2 (remains bound)⟩
  rcases outcome with ⟨d, step, read⟩ | ⟨e, step, failed⟩
  · refine ⟨.ok d, next, step, forward, bound, left, ?_, ?_, ?_, ?_⟩
    · rw [Reader.result, read]
    · rw [Reader.remainder, read]
    · rintro _ ⟨⟩
      obtain ⟨bs, split, within⟩ := within_of_ok read
      -- what is read is what is left before, up to what is left after
      have length : bs.length = next - pos := by
        have := congrArg List.length split
        rw [List.length_append, List.length_drop, List.length_drop] at this
        omega
      refine ⟨bs, ?_, within⟩
      rw [slice?_eq forward bound, List.drop_take, split, ← length, List.take_left]
    · rintro - _ ⟨⟩
  · refine ⟨.error e, next, step, forward, bound, left, ?_, ?_, ?_, ?_⟩
    · rw [Reader.result, failed]
    · rw [Reader.remainder, failed]
    · rintro _ ⟨⟩
    · intro restores _ _
      have same := congrArg List.length (undone restores _ _ _ failed)
      rw [List.length_drop, List.length_drop] at same
      show next = pos
      omega

end ReadCall

/-! ### any sequence of calls -/

namespace Cursor

theorem answers_cons {data : Bytes} {call : ReadCall} {calls : List ReadCall} {pos next : Nat}
    {answer : Except Error Datum} {later : List Answered}
    (step : call.step data pos = some (answer, next)) (ran : answers data calls next = some later) :
    answers data (call :: calls) pos = some (⟨call, pos, answer, next⟩ :: later) := by
  rw [answers, step]
  show (answers data calls next).bind _ = _
  rw [ran]
  rfl

/-- by induction on the calls: where one stops is a position in range, from which the next starts -/
theorem answers_sound_from {data : Bytes} (word : data.length < 2 ^ 64) (calls : List ReadCall)
    {pos : Nat} (inside : pos ≤ data.length) :
    ∃ done, answers data calls pos = some done ∧ done.map Answered.call = calls ∧
      (∀ a ∈ done, pos ≤ a.before ∧ a.Sound data) ∧
      done.Pairwise fun a b => a.after ≤ b.before := by
  induction calls generalizing pos with
  | nil => exact ⟨[], rfl, rfl, nofun, .nil⟩
  | cons call calls ih =>
    obtain ⟨answer, next, step, sound⟩ := call.answered_sound inside word
    have bound : next ≤ data.length := sound.inside
    obtain ⟨later, ran, called, all, ordered⟩ := ih bound
    refine ⟨⟨call, pos, answer, next⟩ :: later, answers_cons step ran, ?_, ?_, ?_⟩
    · rw [List.map_cons, called]
    · intro a member
      rcases List.mem_cons.1 member with rfl | member
      · exact ⟨Nat.le_refl _, sound⟩
      · obtain ⟨behind, sound'⟩ := all a member
        exact ⟨Nat.le_trans sound.forward behind, sound'⟩
    · exact .cons (fun a member => (all a member).1) ordered

/-- **Any calls in any order**: the machine does not fail at one of them, each is sound, and the
position never goes back, however many of the calls before have failed. A byte string in memory is
never longer than a word can say. -/
theorem answers_sound (data : Bytes) (word : data.length < 2 ^ 64) (calls : List ReadCall) :
    ∃ done, answers data calls 0 = some done ∧ done.map Answered.call = calls ∧
      (∀ a ∈ done, a.Sound data) ∧ done.Pairwise fun a b => a.after ≤ b.before := by
  obtain ⟨done, ran, called, all, ordered⟩ := answers_sound_from word calls (Nat.zero_le _)
  exact ⟨done, ran, called, fun a member => (all a member).2, ordered⟩

/-- a document that is too short keeps its length read, so a name is found behind it -/
theorem answers_sound_after_failures :
    let data : Bytes := [5, 0, 0, 0, 0, 3, 0, 0, 0, 104, 105, 0, 255]
    let calls : List ReadCall :=
      [.bytes 100, .documentBytes, .documentBytes, .cstring, .string, .u8, .u8]
    data.length < 2 ^ 64 ∧
      (answers data calls 0).map (·.map Answered.after) = some [0, 5, 9, 12, 12, 13, 13] ∧
      ∃ done, answers data calls 0 = some done ∧ done.map Answered.call = calls ∧
        (∀ a ∈ done, a.Sound data) ∧ done.Pairwise fun a b => a.after ≤ b.before :=
  ⟨by decide, by decide +kernel, answers_sound _ (by decide) _⟩

end Cursor

end Bson
