import Bson.Proofs.Wire.Acceptance
import Bson.Wire.Stream

/-!
# What a source delivers

* `ByteSource.Delivers`  a source delivers a byte string and then ends, in pieces of any size and
                        with interruptions anywhere;
* `readExactly_of_le`, `readExactly_of_lt`  of such a source a number of bytes is read as of the
                        byte string, and a source that has too few is read to its end;
                        `readOrEnd_eq` tells one that has none;
* `unread`              what stays behind the document at the front, or behind a length that is
                        refused;
* `ByteSource.readRaw_eq`  one document is read as the front of the byte string;
* `Config.read_eq_decode`  so to decode from a source is to decode what it delivers.
-/

namespace Bson

open Grammar

namespace ByteSource

/-- a source that delivers these bytes: piece by piece, with interruptions -/
inductive Delivers : ByteSource → Bytes → Prop
  | ended : Delivers [] []
  | data {source : ByteSource} {bs : Bytes} (piece : Bytes) : Delivers source bs →
      Delivers (.data piece :: source) (piece ++ bs)
  | interrupted {source : ByteSource} {bs : Bytes} (text : String) : Delivers source bs →
      Delivers (.failure .interrupted text :: source) bs

theorem lift_eq_ok_iff {α : Type} {result : Except Error α} {source left : ByteSource} {a : α} :
    lift result source = .ok a left ↔ result = .ok a ∧ source = left := by
  cases result <;> simp [lift]

/-- a source delivers its content, if it has no failures but interruptions -/
theorem delivers_iff {source : ByteSource} {bs : Bytes} :
    source.Delivers bs ↔
      source.content = bs ∧
        ∀ kind text, Arrival.failure kind text ∈ source → kind = .interrupted := by
  constructor
  · intro h
    induction h with
    | ended => exact ⟨rfl, nofun⟩
    | data piece _ ih =>
      obtain ⟨same, calm⟩ := ih
      refine ⟨by rw [content, List.flatMap_cons, ← same]; rfl, fun kind text there => ?_⟩
      rcases List.mem_cons.1 there with h | h
      · cases h
      · exact calm kind text h
    | interrupted text _ ih =>
      obtain ⟨same, calm⟩ := ih
      refine ⟨by rw [content, List.flatMap_cons, ← same]; rfl, fun kind text there => ?_⟩
      rcases List.mem_cons.1 there with h | h
      · injection h
      · exact calm kind text h
  · rintro ⟨rfl, calm⟩
    induction source with
    | nil => exact .ended
    | cons a source ih =>
      have rest := ih fun kind text h => calm kind text (List.mem_cons_of_mem _ h)
      cases a with
      | data piece => exact rest.data piece
      | failure kind text =>
        rw [calm kind text (List.mem_cons_self ..)]
        exact rest.interrupted text

/-! ### a number of bytes -/

theorem readExactly_zero (source : ByteSource) : readExactly 0 source = .ok [] source := by
  rw [readExactly]

theorem readExactly_of_le {source : ByteSource} {bs : Bytes} (h : source.Delivers bs) {n : Nat}
    (enough : n ≤ bs.length) :
    ∃ left, readExactly n source = .ok (bs.take n) left ∧ left.Delivers (bs.drop n) := by
  induction h generalizing n with
  | ended =>
    rw [Nat.le_zero.1 enough]
    exact ⟨[], rfl, .ended⟩
  | @data source bs piece rest ih =>
    cases n with
    | zero => exact ⟨_, readExactly_zero _, rest.data piece⟩
    | succ n =>
      rw [readExactly]
      by_cases whole : n + 1 ≤ piece.length
      · rw [if_pos whole, List.take_append_of_le_length whole, List.drop_append_of_le_length whole]
        exact ⟨_, rfl, rest.data _⟩
      · rw [List.length_append] at enough
        obtain ⟨left, read, delivers⟩ := ih (n := n + 1 - piece.length) (by omega)
        have all : piece.length ≤ n + 1 := by omega
        rw [if_neg whole, read, List.take_append, List.drop_append, List.take_of_length_le all,
          List.drop_of_length_le all]
        exact ⟨left, rfl, delivers⟩
  | interrupted text rest ih =>
    cases n with
    | zero => exact ⟨_, readExactly_zero _, rest.interrupted text⟩
    | succ n => exact ih enough

theorem readExactly_of_lt {source : ByteSource} {bs : Bytes} (h : source.Delivers bs) {n : Nat}
    (short : bs.length < n) : readExactly n source = .error Fault.unexpectedEof.error [] := by
  induction h generalizing n with
  | ended =>
    cases n with
    | zero => cases short
    | succ n => rfl
  | data piece _ ih =>
    cases n with
    | zero => cases short
    | succ n =>
      rw [List.length_append] at short
      rw [readExactly, if_neg (by omega), ih (by omega)]
  | interrupted text _ ih =>
    cases n with
    | zero => cases short
    | succ n => exact ih short

/-- a source that has something is read as before, and one that has nothing has ended -/
theorem readOrEnd_eq {source : ByteSource} {bs : Bytes} (h : source.Delivers bs) (n : Nat)
    (begun : Bool) :
    readOrEnd (n + 1) begun source =
      if bs = [] ∧ begun = false then .ok none [] else (some <$> readExactly (n + 1)) source := by
  induction h generalizing n begun with
  | ended => cases begun <;> rfl
  | @data source bs piece _ ih =>
    rw [readOrEnd, EStateM.map_apply, readExactly]
    by_cases whole : n + 1 ≤ piece.length
    · have more : piece ++ bs ≠ [] := by
        intro none
        rw [(List.append_eq_nil_iff.1 none).1] at whole
        cases whole
      rw [if_pos whole, if_pos whole, if_neg fun none => more none.1]
    · obtain ⟨m, hm⟩ : ∃ m, n + 1 - piece.length = m + 1 := ⟨n - piece.length, by omega⟩
      have nothing : (bs = [] ∧ (begun || !piece.isEmpty) = false) ↔
          (piece ++ bs = [] ∧ begun = false) := by
        cases begun <;> cases piece <;> simp
      rw [if_neg whole, if_neg whole, hm, ih]
      by_cases none : piece ++ bs = [] ∧ begun = false
      · rw [if_pos (nothing.2 none), if_pos none]
        rfl
      · rw [if_neg (mt nothing.1 none), if_neg none, EStateM.map_apply]
        cases readExactly (m + 1) source <;> rfl
  | interrupted _ _ ih => exact ih n begun

end ByteSource

/-! ### one document -/

theorem front_of_lt {ceiling : Nat} {bs : Bytes} (h : bs.length < 4) :
    front ceiling bs = .error Fault.unexpectedEof.error := by
  unfold front
  rw [int32_result_of_lt h]
  rfl

theorem front_of_le {ceiling : Nat} {bs : Bytes} (h : 4 ≤ bs.length) :
    front ceiling bs = declaredLength ceiling (Bytes.toInt32 (bs.take 4)) >>= fun declared =>
      if bs.length < declared then .error Fault.unexpectedEof.error
      else .ok (bs.take declared) := by
  unfold front
  rw [int32_result_of_le h]
  rfl

/-- what stays of a byte string from which a document is read: a refused length alone is gone, and
of a document that is too short nothing stays -/
def unread (ceiling : Nat) (bs : Bytes) : Bytes :=
  match declaredLength ceiling (Bytes.toInt32 (bs.take 4)) with
  | .ok declared => bs.drop declared
  | .error _ => bs.drop 4

/-- the three checks of a length, in their order -/
theorem declaredLength_cases (ceiling : Nat) (n : Int32) :
    n.toInt < 5 ∧ declaredLength ceiling n = .error (Fault.invalidLength n.toInt).error ∨
      ∃ declared : Nat, n.toInt = declared ∧ 5 ≤ declared ∧
        (ceiling < declared ∧
            declaredLength ceiling n = .error (.documentTooLarge declared ceiling) ∨
          declared ≤ ceiling ∧ declaredLength ceiling n = .ok declared) := by
  unfold declaredLength Reader.smallestDocument
  by_cases small : n.toInt < (5 : Nat)
  · exact .inl ⟨small, if_pos small⟩
  have natural := Int.toNat_of_nonneg (a := n.toInt) (by omega)
  refine .inr ⟨n.toInt.toNat, natural.symm, by omega, ?_⟩
  rw [if_neg small]
  by_cases large : ceiling < n.toInt.toNat
  · exact .inl ⟨large, if_pos large⟩
  · exact .inr ⟨Nat.le_of_not_lt large, if_neg large⟩

theorem four_lt_of_declaredLength {ceiling : Nat} {n : Int32} {declared : Nat}
    (h : declaredLength ceiling n = .ok declared) : 4 < declared := by
  obtain ⟨small, -, same⟩ := declaredLength_eq_ok_iff.1 h
  rw [same] at small
  exact Int.ofNat_le.1 small

theorem unread_of_front {ceiling : Nat} {bs p : Bytes} (h : front ceiling bs = .ok p) :
    unread ceiling bs = bs.drop p.length := by
  obtain ⟨⟨rest, rfl⟩, ⟨small, -, declared⟩, large⟩ := front_eq_ok_iff.1 h
  have known : declaredLength ceiling (Bytes.toInt32 ((p ++ rest).take 4)) = .ok p.length := by
    rw [List.take_append_of_le_length (Nat.le_of_succ_le small)]
    exact declaredLength_eq_ok_iff.2 ⟨by rw [declared]; exact Int.ofNat_le.2 small, large, declared⟩
  rw [unread, known]

theorem unread_of_lt {ceiling : Nat} {bs : Bytes} (h : bs.length < 4) : unread ceiling bs = [] := by
  unfold unread
  cases known : declaredLength ceiling (Bytes.toInt32 (bs.take 4)) with
  | error e => exact List.drop_of_length_le (Nat.le_of_lt h)
  | ok declared =>
    have small := four_lt_of_declaredLength known
    exact List.drop_of_length_le (by omega)

namespace ByteSource

/-- the rest of a document behind its length, which is the front of the byte string as well -/
theorem readBody_eq (ceiling : Nat) {source : ByteSource} {bs : Bytes} (length : 4 ≤ bs.length)
    (h : source.Delivers (bs.drop 4)) :
    ∃ left, readBody ceiling (bs.take 4) source =
        lift ((front ceiling bs).map RawDocument.mk) left ∧
      left.Delivers (unread ceiling bs) := by
  unfold readBody unread
  rw [EStateM.bind_apply, front_of_le length]
  cases known : declaredLength ceiling (Bytes.toInt32 (bs.take 4)) with
  | error e => exact ⟨source, rfl, h⟩
  | ok declared =>
    have small := four_lt_of_declaredLength known
    show ∃ left, (readExactly (declared - 4) >>= _) source =
      lift (Except.map _ (if bs.length < declared then _ else _)) left ∧ left.Delivers (bs.drop _)
    rw [EStateM.bind_apply]
    by_cases cut : bs.length < declared
    · rw [readExactly_of_lt h (by rw [List.length_drop]; omega), if_pos cut]
      refine ⟨[], rfl, ?_⟩
      rw [List.drop_of_length_le (Nat.le_of_lt cut)]
      exact .ended
    · have enough : declared - 4 ≤ (bs.drop 4).length := by
        rw [List.length_drop]
        omega
      obtain ⟨left, body, rest⟩ := readExactly_of_le h enough
      have whole : bs.take 4 ++ (bs.drop 4).take (declared - 4) = bs.take declared := by
        rw [← List.take_add, Nat.add_sub_cancel' (Nat.le_of_lt small)]
      rw [List.drop_drop, Nat.add_sub_cancel' (Nat.le_of_lt small)] at rest
      rw [body, if_neg cut, ← whole]
      exact ⟨left, rfl, rest⟩

theorem readRaw_eq (ceiling : Nat) {source : ByteSource} {bs : Bytes} (h : source.Delivers bs) :
    ∃ left, readRaw ceiling source = lift ((front ceiling bs).map RawDocument.mk) left ∧
      left.Delivers (unread ceiling bs) := by
  unfold readRaw
  rw [EStateM.bind_apply]
  rcases Nat.lt_or_ge bs.length 4 with short | enough
  · rw [readExactly_of_lt h short, front_of_lt short, unread_of_lt short]
    exact ⟨[], rfl, .ended⟩
  · obtain ⟨middle, read, delivers⟩ := readExactly_of_le h enough
    rw [read]
    exact readBody_eq ceiling enough delivers

end ByteSource

/-! ### decoding -/

namespace Config

theorem decode_eq (config : Config) (shape : Shape) (nesting : Nesting) (bs : Bytes) :
    config.decode shape nesting bs =
      front config.maxDocumentSize bs >>= config.decode shape nesting := by
  cases taken : front config.maxDocumentSize bs with
  | error e =>
    rw [decode, fields_eq, taken]
    rfl
  | ok p =>
    obtain ⟨-, delimited, large⟩ := front_eq_ok_iff.1 taken
    have again : front config.maxDocumentSize p = .ok p :=
      front_eq_ok_iff.2 ⟨List.prefix_refl p, delimited, large⟩
    show _ = config.decode shape nesting p
    rw [decode, decode, fields_eq, fields_eq, taken, again]

/-- **Decoding from a source is decoding what it delivers**: the same value or the same error, also
where the bytes have the frame of a document and are taken as such. The source is left behind the
document if it had all of it, and behind the length if that was refused. -/
theorem read_eq_decode (config : Config) (shape : Shape) (nesting : Nesting) {source : ByteSource}
    {bs : Bytes} (h : source.Delivers bs) :
    (∃ left, config.read shape nesting source =
        ByteSource.lift (config.decode shape nesting bs) left ∧
      (∀ declared,
        declaredLength config.maxDocumentSize (Bytes.toInt32 (bs.take 4)) = .ok declared →
        declared ≤ bs.length → left.Delivers (bs.drop declared)) ∧
      ∀ e, declaredLength config.maxDocumentSize (Bytes.toInt32 (bs.take 4)) = .error e →
        4 ≤ bs.length → left.Delivers (bs.drop 4)) ∧
    ∀ doc, RawDocument.ofBytes bs = .ok doc →
      config.decode shape nesting doc.bytes = config.decode shape nesting bs := by
  refine ⟨?_, fun doc framed => ?_⟩
  · obtain ⟨left, read, delivers⟩ := ByteSource.readRaw_eq config.maxDocumentSize h
    have whole : config.read shape nesting source =
        ByteSource.lift (config.decode shape nesting bs) left := by
      unfold Config.read
      rw [EStateM.bind_apply, read, decode_eq config shape nesting bs]
      cases front config.maxDocumentSize bs <;> rfl
    refine ⟨left, whole, fun declared known _ => ?_, fun e refused _ => ?_⟩
    · rwa [unread, known] at delivers
    · rwa [unread, refused] at delivers
  · rw [(RawDocument.ofBytes_eq_ok_iff.1 framed).1]

/-- a document with an unknown tag, in pieces; the bytes behind it stay in the source -/
theorem read_eq_decode_in_pieces :
    let source : ByteSource := [.data [8, 0], .failure .interrupted "", .data [0, 0, 32, 98, 0],
      .data [0, 9, 9]]
    source.Delivers [8, 0, 0, 0, 32, 98, 0, 0, 9, 9] ∧
      ∃ left, standard.read .map .noNest source =
          .error (.located ⟨"b"⟩ (.invalidElementType 32)) left ∧ left.Delivers [9, 9] := by
  intro source
  have delivers : source.Delivers [8, 0, 0, 0, 32, 98, 0, 0, 9, 9] :=
    .data [8, 0] (.interrupted "" (.data [0, 0, 32, 98, 0] (.data [0, 9, 9] .ended)))
  obtain ⟨left, read, behind, -⟩ := (read_eq_decode standard .map .noNest delivers).1
  exact ⟨delivers, left, read, behind 8 rfl (by decide)⟩

end Config

end Bson
