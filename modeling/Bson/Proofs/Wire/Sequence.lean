import Bson.Proofs.Wire.Sources

/-!
# Documents one after another

* `DocumentStream.Gives`  what the calls to a stream answer, whatever the pieces in which its source
                        delivers the bytes, and what the source still delivers afterwards;
* `DocumentStream.Ends`  how a stream ends on what stands behind the last whole document: with
                        nothing, or with one error;
* `DocumentStream.gives_documents`  a stream gives the documents at the front of its bytes and then
                        ends, for good.
-/

namespace Bson

open Grammar

namespace DocumentStream

/-- over any source that delivers the bytes, call number `i` answers item number `i`, and nothing
when they are all given; then `left` is what the source still delivers -/
def Gives (ceiling : Nat) (bs : Bytes) (items : List (Except Error RawDocument))
    (left : Bytes) : Prop :=
  ∀ source : ByteSource, source.Delivers bs → ∀ n,
    (run n { source, ceiling }).1 = (List.range n).map (fun i => items[i]?) ∧
      (items.length ≤ n → (run n { source, ceiling }).2.source.Delivers left)

/-- how a stream ends on the bytes behind the last whole document: the error, if one is given, and
what stays in the source. A length is refused before anything behind it is read. -/
inductive Ends (ceiling : Nat) : (rest : Bytes) → Option Error → (left : Bytes) → Prop
  | clean : Ends ceiling [] none []
  | lengthCut {rest : Bytes} : rest ≠ [] → rest.length < 4 →
      Ends ceiling rest (some Fault.unexpectedEof.error) []
  | tooSmall {rest : Bytes} {n : Int} : 4 ≤ rest.length → (Bytes.toInt32 (rest.take 4)).toInt = n →
      n < 5 → Ends ceiling rest (some (Fault.invalidLength n).error) (rest.drop 4)
  | tooLarge {rest : Bytes} {n : Nat} : IsLength (rest.take 4) n → 5 ≤ n → ceiling < n →
      Ends ceiling rest (some (.documentTooLarge n ceiling)) (rest.drop 4)
  | bodyCut {rest : Bytes} {n : Nat} : IsLength (rest.take 4) n → 5 ≤ n → n ≤ ceiling →
      rest.length < n → Ends ceiling rest (some Fault.unexpectedEof.error) []

theorem ends_of_front {ceiling : Nat} {rest : Bytes} {e : Error} (more : rest ≠ [])
    (refused : front ceiling rest = .error e) :
    Ends ceiling rest (some e) (unread ceiling rest) := by
  rcases Nat.lt_or_ge rest.length 4 with short | enough
  · rw [front_of_lt short] at refused
    injection refused with refused
    rw [unread_of_lt short, ← refused]
    exact .lengthCut more short
  have length : (rest.take 4).length = 4 := List.length_take_of_le enough
  rw [front_of_le enough] at refused
  unfold unread
  rcases declaredLength_cases ceiling (Bytes.toInt32 (rest.take 4)) with
    ⟨small, known⟩ | ⟨declared, same, smallest, ⟨large, known⟩ | ⟨fits, known⟩⟩
  · rw [known] at refused ⊢
    cases refused
    exact .tooSmall enough rfl small
  · rw [known] at refused ⊢
    cases refused
    exact .tooLarge ⟨length, same⟩ smallest large
  · rw [known] at refused ⊢
    change (if _ then _ else _) = _ at refused
    by_cases cut : rest.length < declared
    · rw [if_pos cut] at refused
      cases refused
      show Ends ceiling rest _ (rest.drop declared)
      rw [List.drop_of_length_le (Nat.le_of_lt cut)]
      exact .bodyCut ⟨length, same⟩ smallest fits cut
    · rw [if_neg cut] at refused
      cases refused

/-! ### one call -/

section

variable {ceiling : Nat} {source : ByteSource} {bs : Bytes}

theorem next_of_nil (h : source.Delivers []) :
    next { source, ceiling } = (none, { source := [], ceiling, done := true }) := by
  have read : readNext ceiling source = .ok none [] := by
    unfold readNext
    rw [EStateM.bind_apply, ByteSource.readOrEnd_eq h]
    rfl
  unfold next
  dsimp only
  rw [if_neg (by decide), read]

theorem readNext_eq (h : source.Delivers bs) (more : bs ≠ []) :
    readNext ceiling source = (some <$> ByteSource.readRaw ceiling) source := by
  unfold readNext ByteSource.readRaw
  rw [EStateM.bind_apply, ByteSource.readOrEnd_eq h, if_neg fun none => more none.1,
    EStateM.map_apply, EStateM.map_apply, EStateM.bind_apply]
  cases ByteSource.readExactly 4 source with
  | error e left => rfl
  | ok front left => exact EStateM.map_apply ..

theorem next_of_front {p : Bytes} (h : source.Delivers bs) (taken : front ceiling bs = .ok p) :
    ∃ left, next { source, ceiling } = (some (.ok ⟨p⟩), { source := left, ceiling }) ∧
      left.Delivers (bs.drop p.length) := by
  have more : bs ≠ [] := by
    rintro rfl
    cases taken
  obtain ⟨left, read, delivers⟩ := ByteSource.readRaw_eq ceiling h
  rw [taken] at read
  rw [unread_of_front taken] at delivers
  refine ⟨left, ?_, delivers⟩
  unfold next
  dsimp only
  rw [if_neg (by decide), readNext_eq h more, EStateM.map_apply, read]
  rfl

theorem next_of_refused {e : Error} (h : source.Delivers bs) (more : bs ≠ [])
    (refused : front ceiling bs = .error e) :
    ∃ left, next { source, ceiling } =
        (some (.error e), { source := left, ceiling, done := true }) ∧
      left.Delivers (unread ceiling bs) := by
  obtain ⟨left, read, delivers⟩ := ByteSource.readRaw_eq ceiling h
  rw [refused] at read
  refine ⟨left, ?_, delivers⟩
  unfold next
  dsimp only
  rw [if_neg (by decide), readNext_eq h more, EStateM.map_apply, read]
  rfl

end

/-! ### all calls -/

theorem run_succ (n : Nat) (s : DocumentStream) :
    run (n + 1) s = (s.next.1 :: (run n s.next.2).1, (run n s.next.2).2) := rfl

/-- after its end a stream gives nothing, and reads nothing -/
theorem run_of_done (n : Nat) {s : DocumentStream} (h : s.done = true) :
    run n s = (List.replicate n none, s) := by
  have stay : s.next = (none, s) := if_pos h
  induction n with
  | zero => rfl
  | succ n ih =>
    rw [run_succ, stay, ih]
    rfl

theorem answers_nil (n : Nat) :
    List.replicate n none =
      (List.range n).map fun i => ([] : List (Except Error RawDocument))[i]? := by
  show _ = (List.range n).map fun _ => none
  rw [List.map_const', List.length_range]

theorem answers_cons (item : Except Error RawDocument) (items : List (Except Error RawDocument))
    (n : Nat) :
    (List.range (n + 1)).map (fun i => (item :: items)[i]?) =
      some item :: (List.range n).map (fun i => items[i]?) := by
  rw [List.range_succ_eq_map, List.map_cons, List.map_map]
  rfl

theorem gives_nil (ceiling : Nat) : Gives ceiling [] [] [] := by
  intro source h n
  cases n with
  | zero => exact ⟨rfl, fun _ => h⟩
  | succ n =>
    rw [run_succ, next_of_nil h, run_of_done n rfl]
    exact ⟨answers_nil (n + 1), fun _ => .ended⟩

theorem gives_refused {ceiling : Nat} {bs : Bytes} {e : Error} (more : bs ≠ [])
    (refused : front ceiling bs = .error e) : Gives ceiling bs [.error e] (unread ceiling bs) := by
  intro source h n
  cases n with
  | zero => exact ⟨rfl, nofun⟩
  | succ n =>
    obtain ⟨left, next, delivers⟩ := next_of_refused h more refused
    rw [run_succ, next, run_of_done n rfl, answers_cons, answers_nil]
    exact ⟨rfl, fun _ => delivers⟩

theorem gives_cons {ceiling : Nat} {bs p left : Bytes} {items : List (Except Error RawDocument)}
    (taken : front ceiling bs = .ok p) (rest : Gives ceiling (bs.drop p.length) items left) :
    Gives ceiling bs (.ok ⟨p⟩ :: items) left := by
  intro source h n
  cases n with
  | zero => exact ⟨rfl, nofun⟩
  | succ n =>
    obtain ⟨after, next, delivers⟩ := next_of_front h taken
    obtain ⟨answers, last⟩ := rest after delivers n
    rw [run_succ, next, answers_cons]
    exact ⟨congrArg _ answers, fun all => last (Nat.le_of_succ_le_succ all)⟩

def Whole (ceiling : Nat) (docs : List RawDocument) : Prop :=
  ∀ doc ∈ docs, Delimited doc.bytes ∧ doc.bytes.length ≤ ceiling

/-- **A stream gives the documents of its bytes, in order**, until it ends without an error at the
end of the bytes, or with one where no further document stands; and only nothing after that. Bytes
that are documents one after another give these. -/
theorem gives_documents (ceiling : Nat) (bs : Bytes) :
    (∃ (docs : List RawDocument) (rest : Bytes) (last : Option Error) (left : Bytes),
      bs = docs.flatMap RawDocument.bytes ++ rest ∧ Whole ceiling docs ∧
        Ends ceiling rest last left ∧
        Gives ceiling bs (docs.map .ok ++ last.toList.map .error) left) ∧
    ∀ docs, Whole ceiling docs → bs = docs.flatMap RawDocument.bytes →
      Gives ceiling bs (docs.map .ok) [] := by
  refine ⟨?_, fun docs whole same => ?_⟩
  · induction hn : bs.length using Nat.strongRecOn generalizing bs with
    | ind n ih =>
      cases taken : front ceiling bs with
      | error e =>
        by_cases more : bs = []
        · subst more
          exact ⟨[], [], none, [], rfl, nofun, .clean, gives_nil ceiling⟩
        · exact ⟨[], bs, some e, _, rfl, nofun, ends_of_front more taken, gives_refused more taken⟩
      | ok p =>
        obtain ⟨⟨behind, rfl⟩, delimited, small⟩ := front_eq_ok_iff.1 taken
        have shorter : behind.length < n := by
          have := delimited.1
          rw [← hn, List.length_append]
          unfold Reader.smallestDocument at this
          omega
        obtain ⟨docs, rest, last, left, rfl, whole, ends, gives⟩ := ih _ shorter behind rfl
        refine ⟨⟨p⟩ :: docs, rest, last, left, ?_, ?_, ends, ?_⟩
        · rw [List.flatMap_cons, List.append_assoc]
        · exact List.forall_mem_cons.2 ⟨⟨delimited, small⟩, whole⟩
        · exact gives_cons taken (by rwa [List.drop_left])
  · subst same
    induction docs with
    | nil => exact gives_nil ceiling
    | cons doc docs ih =>
      obtain ⟨⟨delimited, small⟩, others⟩ := List.forall_mem_cons.1 whole
      rw [List.flatMap_cons]
      have taken : front ceiling (doc.bytes ++ docs.flatMap RawDocument.bytes) = .ok doc.bytes :=
        front_eq_ok_iff.2 ⟨List.prefix_append _ _, delimited, small⟩
      exact gives_cons taken (by rw [List.drop_left]; exact ih others)

/-- two documents in four pieces that cut a length and a body, with an interruption -/
theorem gives_documents_in_pieces :
    let docs : List RawDocument := [⟨[5, 0, 0, 0, 0]⟩, ⟨[7, 0, 0, 0, 9, 9, 0]⟩]
    let source : ByteSource := [.data [5, 0], .failure .interrupted "", .data [0, 0, 0, 7],
      .data [0, 0, 0, 9], .data [9, 0]]
    Whole 7 docs ∧ source.Delivers (docs.flatMap RawDocument.bytes) ∧
      ∀ n, (run n { source, ceiling := 7 }).1 =
        (List.range n).map fun i => (docs.map (Except.ok (ε := Error)))[i]? := by
  intro docs source
  have whole : Whole 7 docs := by
    unfold Whole Delimited IsLength
    decide
  have delivers : source.Delivers (docs.flatMap RawDocument.bytes) :=
    .data [5, 0] (.interrupted "" (.data [0, 0, 0, 7] (.data [0, 0, 0, 9] (.data [9, 0] .ended))))
  exact ⟨whole, delivers, fun n => ((gives_documents 7 _).2 docs whole rfl source delivers n).1⟩

end DocumentStream

end Bson
