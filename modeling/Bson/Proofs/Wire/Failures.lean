import Bson.Proofs.Error.Paths
import Bson.Proofs.Shape.Maps
import Bson.Proofs.Wire.Sources
import Bson.Proofs.Wire.Violations

/-!
# Where decoding fails

* `Fault.ofReading`     the faults of bytes that are no document;
* `Error.At`            an error with such a fault, under names of which something holds;
* `Reader.FailsHere`    a reader that fails with such faults alone, and locates none;
* `Reader.at_payload`, `at_elements`, `reads_contents`  a payload, elements and a container fail at
                        a violation of the grammar (`Grammar.WrongElements`);
* `Config.fields_error`  so decoding fails at a violation, for the size of the document if the error
                        has no path.
-/

namespace Bson

open Grammar

variable {α β : Type}

/-- the faults of bytes that are no document -/
def Fault.ofReading : Fault → Bool
  | .unexpectedEof | .invalidLength _ | .invalidElementType _ | .missingNul | .invalidUtf8
  | .invalidDocument _ => true
  | _ => false

theorem Fault.kind_of_ofReading {f : Fault} (h : f.ofReading) : f.kind = .shape := by
  cases f <;> first | rfl | cases h

/-- the error has a fault of reading, under names with a property -/
def Error.At (p : List String → Prop) (e : Error) : Prop :=
  ∃ (names : List String) (fault : Fault), e = fault.error.under names ∧ fault.ofReading ∧ p names

namespace Error

variable {p q : List String → Prop} {e : Error}

theorem At.imp (h : e.At p) (follows : ∀ names, p names → q names) : e.At q := by
  obtain ⟨names, fault, seen, reading, here⟩ := h
  exact ⟨names, fault, seen, reading, follows names here⟩

theorem at_error {f : Fault} (reading : f.ofReading) (here : p []) : f.error.At p :=
  ⟨[], f, rfl, reading, here⟩

theorem At.within (h : e.At p) (name : String) :
    (e.within name).At fun names => ∃ path, names = name :: path ∧ p path := by
  obtain ⟨names, fault, rfl, reading, here⟩ := h
  exact ⟨name :: names, fault, rfl, reading, names, rfl, here⟩

end Error

/-! ### readers that locate nothing -/

namespace Reader

/-- whatever fails is a fault of reading at the root -/
def FailsHere (r : Reader α) : Prop :=
  ∀ input e rest, r input = .error e rest → ∃ f : Fault, f.ofReading ∧ e = f.error

theorem FailsHere.at {r : Reader α} (h : r.FailsHere) {input rest : Bytes} {e : Error}
    (failed : r input = .error e rest) {p : List String → Prop} (here : p []) : e.At p := by
  obtain ⟨f, reading, rfl⟩ := h input e rest failed
  exact Error.at_error reading here

theorem failsHere_pure (a : α) : (pure a : Reader α).FailsHere := nofun

theorem failsHere_fail {f : Fault} (reading : f.ofReading) : (fail f : Reader α).FailsHere := by
  rintro input e rest ⟨⟩
  exact ⟨f, reading, rfl⟩

/-- what comes after has to fail well only for what was read -/
theorem FailsHere.bind {r : Reader α} {k : α → Reader β} (hr : r.FailsHere)
    (hk : ∀ a input rest, r input = .ok a rest → (k a).FailsHere) : (r >>= k).FailsHere := by
  intro input e rest failed
  rcases EStateM.bind_eq_error_iff.1 failed with failed | ⟨a, left, read, failed⟩
  · exact hr input e rest failed
  · exact hk a input left read left e rest failed

theorem FailsHere.map {r : Reader α} (h : r.FailsHere) (f : α → β) : (f <$> r).FailsHere := by
  rw [← bind_pure_comp]
  exact h.bind fun a _ _ _ => failsHere_pure (f a)

theorem FailsHere.ite {c : Prop} [Decidable c] {r s : Reader α} (hr : r.FailsHere)
    (hs : s.FailsHere) : (if c then r else s).FailsHere := by
  by_cases h : c
  · rwa [if_pos h]
  · rwa [if_neg h]

theorem failsHere_bytes (n : Nat) : (bytes n).FailsHere := by
  intro input e rest failed
  rw [bytes] at failed
  split at failed
  · cases failed
  · injection failed with failed
    exact ⟨_, rfl, failed.symm⟩

theorem failsHere_u8 : u8.FailsHere := by
  intro input e rest failed
  cases input with
  | nil =>
    injection failed with failed
    exact ⟨_, rfl, failed.symm⟩
  | cons => cases failed

theorem failsHere_int32 : int32.FailsHere := (failsHere_bytes 4).map _

theorem failsHere_int64 : int64.FailsHere := (failsHere_bytes 8).map _

theorem failsHere_double : double.FailsHere := (failsHere_bytes 8).map _

theorem failsHere_text (bs : Bytes) : (text bs).FailsHere := by
  intro input e rest failed
  unfold text at failed
  split at failed
  · cases failed
  · injection failed with failed
    exact ⟨_, rfl, failed.symm⟩

theorem failsHere_cstring : cstring.FailsHere := by
  intro input e rest failed
  unfold cstring at failed
  split at failed
  · injection failed with failed
    exact ⟨_, rfl, failed.symm⟩
  · split at failed
    · cases failed
    · injection failed with failed
      exact ⟨_, rfl, failed.symm⟩

theorem failsHere_string : string.FailsHere :=
  failsHere_int32.bind fun _ _ _ _ => (failsHere_fail rfl).ite ((failsHere_pure "").ite
    ((failsHere_bytes _).bind fun bs _ _ _ => (failsHere_text bs.dropLast).ite
      (failsHere_fail rfl)))

theorem failsHere_documentBytes : documentBytes.FailsHere := by
  intro input e rest failed
  unfold documentBytes at failed
  cases length : int32 input with
  | error e' left =>
    rw [length] at failed
    injection failed with same
    exact failsHere_int32 input e left (same ▸ length)
  | ok n left =>
    simp only [length] at failed
    split at failed
    · injection failed with failed
      exact ⟨_, rfl, failed.symm⟩
    · exact failsHere_bytes _ _ _ _ failed

theorem failsHere_objectId : readObjectId.FailsHere := by
  refine (failsHere_bytes 12).bind fun bs input rest read => ?_
  obtain ⟨_, -, twelve, rfl⟩ := (accepts_bytes 12 _ _ _).1 read
  rw [ObjectId.located, ObjectId.ofBytes?, dif_pos twelve]
  intro input e left failed
  cases failed

theorem failsHere_binary : readBinary.FailsHere :=
  failsHere_int32.bind fun _ _ _ _ => (failsHere_fail rfl).ite
    (failsHere_u8.bind fun _ _ _ _ => failsHere_bytes _)

variable {order : ArrayOrder} {shape : Shape} {nesting : Nesting} {inner : Contents}

theorem failsHere_scalar {t : ElementType} (h : t.isContainer = false) :
    (readPayload order shape nesting inner t).FailsHere := by
  cases t with
  | embeddedDocument | array | codeWithScope => cases h
  | double => exact failsHere_double.map _
  | string | javaScript | symbol => exact failsHere_string.map _
  | binary => exact failsHere_binary.map _
  | objectId => exact failsHere_objectId.map _
  | boolean => exact failsHere_u8.map _
  | int32 => exact failsHere_int32.map _
  | dateTime | timestamp | int64 => exact failsHere_int64.map _
  | regex =>
    exact failsHere_cstring.bind fun _ _ _ _ => failsHere_cstring.bind fun _ _ _ _ =>
      failsHere_pure _
  | dbPointer =>
    exact failsHere_string.bind fun _ _ _ _ => failsHere_objectId.bind fun _ _ _ _ =>
      failsHere_pure _
  | undefined | null | minKey | maxKey => exact failsHere_pure _

theorem lift_eq_error_iff {result : Except Error α} {input rest : Bytes} {e : Error} :
    lift result input = .error e rest ↔ result = .error e ∧ input = rest := by
  cases result <;> simp [lift]

theorem Accepts.not_of_error {r : Reader α} {format : Bytes → α → Prop} (h : r.Accepts format)
    {input rest : Bytes} {e : Error} (failed : r input = .error e rest) :
    ∀ bs left a, input = bs ++ left → ¬ format bs a := by
  rintro bs left a rfl here
  rw [(h _ _ _).2 ⟨bs, rfl, here⟩] at failed
  cases failed

/-! ### payloads -/

/-- what is wrong behind a tag is the payload itself, or the container in it -/
def WrongAt (order : ArrayOrder) (levels : Nat) (nesting : Nesting) (tag : UInt8) (bs : Bytes)
    (names : List String) : Prop :=
  names = [] ∧ WrongPayload order levels nesting tag bs ∨
    ∃ t segments cs path, tag = ElementType.tag t ∧ Encloses t bs segments cs ∧ nesting.Enters t ∧
      WrongContainer order levels cs path ∧ names = segments ++ path

/-- containers one level down are read as the grammar has them, up to some depth, or fail at a
violation -/
structure Reads (order : ArrayOrder) (levels : Nat) (inner : Contents) : Prop where
  accepted : ∀ bs fs, Delimited bs →
    (inner .document bs = .ok fs ↔ IsDocument order bs fs ∧ Document.depth fs ≤ levels)
  failed : ∀ bs e, inner .document bs = .error e → e.At (WrongContainer order levels bs)

theorem accepts_acceptable {levels : Nat} (h : Reads order levels inner) (t : ElementType) :
    (readPayload order .document nesting inner t).Accepts (Acceptable order levels nesting t) := by
  cases nesting with
  | nested => exact accepts_payload h.accepted t
  | noNest => exact accepts_payload_noNest h.accepted t

theorem accepts_tagged_acceptable {levels : Nat} (h : Reads order levels inner) (tag : UInt8) :
    (readTagged order .document nesting inner tag).Accepts fun bs v =>
      ∃ t : ElementType, t.tag = tag ∧ Acceptable order levels nesting t bs v :=
  accepts_tagged (accepts_acceptable h) tag

/-- a document behind its length fails if it is not delimited, or what is made of it fails -/
theorem documentBytes_lift_error {f : Bytes → Except Error α} {input rest : Bytes} {e : Error}
    (failed : (documentBytes >>= fun bs => lift (f bs)) input = .error e rest) :
    (∀ bs left, input = bs ++ left → ¬ Delimited bs) ∧ (∃ f : Fault, f.ofReading ∧ e = f.error) ∨
      ∃ bs left, input = bs ++ left ∧ Delimited bs ∧ f bs = .error e := by
  rcases EStateM.bind_eq_error_iff.1 failed with failed | ⟨bs, left, read, failed⟩
  · refine .inl ⟨fun bs left split delimited => ?_, failsHere_documentBytes _ _ _ failed⟩
    exact accepts_documentBytes.not_of_error failed bs left bs split ⟨delimited, rfl⟩
  · obtain ⟨_, split, delimited, rfl⟩ := (accepts_documentBytes _ _ _).1 read
    exact .inr ⟨bs, left, split, delimited, (lift_eq_error_iff.1 failed).1⟩

/-- the bytes of an embedded document that is left as bytes lack the terminator, or nothing -/
theorem ofBytes_error {bs : Bytes} {e : Error} (delimited : Delimited bs)
    (failed : RawDocument.ofBytes bs = .error e) :
    bs.getLast? ≠ some 0 ∧ e = (Fault.invalidDocument .missingTerminator).error := by
  have small : ¬ bs.length < smallestDocument := Nat.not_lt.2 delimited.1
  have length := delimited.2.2
  unfold RawDocument.ofBytes at failed
  rw [if_neg small] at failed
  simp only [length, ne_eq, not_true_eq_false, if_false] at failed
  split at failed
  · rename_i last
    injection failed with failed
    exact ⟨last, failed.symm⟩
  · cases failed

variable {levels : Nat} {input rest : Bytes} {e : Error}

theorem wrongAt_of_undelimited {t : ElementType} (isContainer : t.isContainer = true)
    (other : t ≠ .codeWithScope) (undelimited : ∀ bs left, input = bs ++ left → ¬ Delimited bs) :
    WrongAt order levels nesting t.tag input [] := by
  refine .inl ⟨rfl, .frame isContainer fun segments cs encloses => ?_⟩
  obtain ⟨left, split, delimited⟩ := encloses.front other
  exact undelimited cs left split delimited

/-- the container inside a document or an array is not delimited, or wrong -/
theorem at_container (h : Reads order levels inner) {t : ElementType} {f : Fields Value → Value}
    (isContainer : t.isContainer = true) (other : t ≠ .codeWithScope) (enters : nesting.Enters t)
    (failed : (documentBytes >>= fun bs => lift ((inner .document bs).map f)) input =
      .error e rest) :
    e.At (WrongAt order levels nesting t.tag input) := by
  rcases documentBytes_lift_error failed with ⟨undelimited, fault, reading, rfl⟩ |
    ⟨bs, left, rfl, hbs, he⟩
  · exact Error.at_error reading (wrongAt_of_undelimited isContainer other undelimited)
  · refine (h.failed bs e (Except.map_eq_error_iff.1 he)).imp fun names wrong => .inr ?_
    exact ⟨t, [], bs, names, rfl, .of_delimited isContainer other hbs left, enters, wrong, rfl⟩

/-- code whose length, text and scope are delimited fails at the scope, or at its span -/
theorem at_enclosed_scope (h : Reads order levels inner) {segments : List String} {bs : Bytes}
    (encloses : Encloses .codeWithScope input segments bs)
    (failed : readCodeWithScope inner input = .error e rest) :
    e.At (WrongAt order levels nesting ElementType.codeWithScope.tag input) := by
  have here := encloses
  cases encloses with
  | @codeWithScope w cs _ left code hw large hs hd =>
  rw [readCodeWithScope_of_parts hw large hs hd] at failed
  split at failed
  · rename_i scope
    injection failed with same
    obtain ⟨e', scope, rfl⟩ := inField_eq_error_iff.1 (same ▸ scope)
    refine ((h.failed bs e' scope).within "Scope").imp fun names wrong => .inr ?_
    obtain ⟨path, rfl, wrong⟩ := wrong
    exact ⟨.codeWithScope, ["Scope"], bs, path, rfl, here, .inr nofun, wrong, rfl⟩
  · rename_i fs scope
    obtain ⟨hdoc, shallow⟩ := (h.accepted bs fs hd).1 (inField_eq_ok_iff.1 scope)
    split at failed
    · cases failed
    · rename_i span
      injection failed with same
      subst same
      refine Error.at_error rfl (.inl ⟨rfl, .span hw hs hdoc shallow fun total => span ?_⟩)
      rw [total]
      simp only [List.length_append]
      omega

theorem at_codeWithScope (h : Reads order levels inner)
    (failed : readCodeWithScope inner input = .error e rest) :
    e.At (WrongAt order levels nesting ElementType.codeWithScope.tag input) := by
  by_cases encloses : ∃ segments bs, Encloses .codeWithScope input segments bs
  · obtain ⟨segments, bs, encloses⟩ := encloses
    exact at_enclosed_scope h encloses failed
  have wrong : WrongAt order levels nesting ElementType.codeWithScope.tag input [] :=
    .inl ⟨rfl, .frame rfl fun segments bs h => encloses ⟨segments, bs, h⟩⟩
  unfold readCodeWithScope at failed
  rcases EStateM.bind_eq_error_iff.1 failed with failed | ⟨total, left, read, failed⟩
  · exact failsHere_int32.at failed wrong
  obtain ⟨w, rfl, hw, rfl⟩ := (accepts_int32 _ _ _).1 read
  by_cases small : (Bytes.toInt32 w).toInt < 8 + smallestDocument
  · rw [if_pos small] at failed
    exact (failsHere_fail rfl).at failed wrong
  rw [if_neg small] at failed
  rcases EStateM.bind_eq_error_iff.1 failed with failed | ⟨code, left, read, failed⟩
  · exact failsHere_string.at failed wrong
  obtain ⟨cs, rfl, hs⟩ := (accepts_string _ _ _).1 read
  rcases EStateM.bind_eq_error_iff.1 failed with failed | ⟨bs, left, read, -⟩
  · exact failsHere_documentBytes.at failed wrong
  obtain ⟨_, rfl, hd, rfl⟩ := (accepts_documentBytes _ _ _).1 read
  exact absurd ⟨_, _, .codeWithScope hw (Int.not_lt.1 small) hs hd⟩ encloses

theorem at_payload (h : Reads order levels inner) {t : ElementType}
    (failed : readPayload order .document nesting inner t input = .error e rest) :
    e.At (WrongAt order levels nesting t.tag input) := by
  cases ht : t.isContainer with
  | false =>
    refine (failsHere_scalar ht).at failed (.inl ⟨rfl, .scalar ht fun cs left v split => ?_⟩)
    exact (accepts_scalar ht).not_of_error failed cs left v split
  | true =>
    cases t with
    | embeddedDocument =>
      have other : ElementType.embeddedDocument ≠ .codeWithScope := by decide
      cases nesting with
      | nested => exact at_container h rfl other (.inl rfl) failed
      | noNest =>
        rcases documentBytes_lift_error failed with ⟨undelimited, fault, reading, rfl⟩ |
          ⟨bs, left, rfl, hbs, he⟩
        · exact Error.at_error reading (wrongAt_of_undelimited rfl other undelimited)
        · obtain ⟨last, rfl⟩ := ofBytes_error hbs (Except.map_eq_error_iff.1 he)
          exact Error.at_error rfl (.inl ⟨rfl, .terminator rfl hbs last⟩)
    | array => exact at_container h rfl (by decide) (.inr (by decide)) failed
    | codeWithScope => exact at_codeWithScope h failed
    | _ => cases ht

theorem at_tagged (h : Reads order levels inner) {tag : UInt8}
    (failed : readTagged order .document nesting inner tag input = .error e rest) :
    e.At (WrongAt order levels nesting tag input) := by
  unfold readTagged at failed
  cases ht : ElementType.ofTag? tag with
  | some t =>
    rw [ht] at failed
    obtain rfl := ElementType.tag_of_ofTag? ht
    exact at_payload h failed
  | none =>
    rw [ht] at failed
    refine (failsHere_fail rfl).at failed (.inl ⟨rfl, .unknown fun t same => ?_⟩)
    rw [← same, ElementType.ofTag?_tag] at ht
    cases ht

end Reader

/-! ### elements -/

/-- no element list goes on, or what is behind a tag and a name is wrong -/
inductive Halts (wrong : UInt8 → Bytes → List String → Prop) : Bytes → List String → Prop
  | stuck {bs : Bytes} : Stuck bs → Halts wrong bs []
  | payload {tag : UInt8} {name : String} {bs : Bytes} {names : List String} : tag ≠ 0 →
      0 ∉ utf8 name → wrong tag bs names →
      Halts wrong (tag :: ((utf8 name ++ [0]) ++ bs)) (name :: names)

section

variable {payload : UInt8 → Reader Value} {format : ElementType → Bytes → Value → Prop}
  {wrong : UInt8 → Bytes → List String → Prop}
  (accepts : ∀ tag,
    (payload tag).Accepts fun bs v => ∃ t : ElementType, t.tag = tag ∧ format t bs v)
  (fails : ∀ tag input e rest, payload tag input = .error e rest → e.At (wrong tag input))
  {fuel : Nat} {body : Bytes} {e : Error}

include accepts fails

/-- one step fails where it stands, or an element is accepted and what is behind it fails -/
theorem readElements_succ_error (failed : readElements payload (fuel + 1) body = .error e) :
    e.At (Halts wrong body) ∨ ∃ (x : Element) (rest : Bytes), x.Has format ∧
      body = x.bytes ++ rest ∧ readElements payload fuel rest = .error e := by
  cases body with
  | nil =>
    injection failed with same
    exact .inl (same ▸ Error.at_error rfl (.stuck .ended))
  | cons tag rest =>
    rw [readElements] at failed
    by_cases terminator : tag = 0
    · subst terminator
      rw [if_pos rfl] at failed
      cases rest with
      | nil => cases failed
      | cons b rest =>
        injection failed with same
        have stuck : Stuck (0 :: b :: rest) := .afterTerminator (List.cons_ne_nil _ _)
        exact .inl (same ▸ Error.at_error rfl (.stuck stuck))
    rw [if_neg terminator] at failed
    cases hn : Reader.cstring rest with
    | error e' left =>
      rw [hn] at failed
      injection failed with same
      subst same
      have nameless := Reader.accepts_cstring.not_of_error hn
      exact .inl (Reader.failsHere_cstring.at hn (.stuck (.name terminator nameless)))
    | ok name left =>
      obtain ⟨_, rfl, ⟨free⟩⟩ := (Reader.accepts_cstring _ _ _).1 hn
      simp only [hn] at failed
      cases hv : payload tag left with
      | error e' left' =>
        rw [hv] at failed
        injection failed with same
        subst same
        refine .inl (((fails tag left e' left' hv).within name).imp ?_)
        rintro _ ⟨names, rfl, here⟩
        exact .payload terminator free here
      | ok v left' =>
        obtain ⟨cs, rfl, t, rfl, hp⟩ := (accepts _ _ _ _).1 hv
        simp only [hv] at failed
        rcases Except.bind_eq_error_iff.1 failed with failed | ⟨_, -, failed⟩
        · have bytes := Element.bytes_append ⟨t, name, cs, v⟩ left'
          exact .inr ⟨_, left', ⟨free, hp⟩, bytes.symm, failed⟩
        · cases failed

theorem readElements_error (enough : body.length < fuel)
    (failed : readElements payload fuel body = .error e) :
    ∃ (es : List Element) (rest : Bytes), (∀ e ∈ es, e.Has format) ∧
      body = es.flatMap Element.bytes ++ rest ∧ e.At (Halts wrong rest) := by
  induction fuel generalizing body with
  | zero => exact absurd enough (Nat.not_lt_zero _)
  | succ fuel ih =>
    rcases readElements_succ_error accepts fails failed with here | ⟨x, rest, has, rfl, more⟩
    · exact ⟨[], body, nofun, rfl, here⟩
    · have fewer : rest.length < fuel := by
        rw [Element.bytes, List.cons_append, List.length_cons, List.length_append] at enough
        omega
      obtain ⟨es, rest, others, rfl, located⟩ := ih fewer more
      refine ⟨x :: es, rest, List.forall_mem_cons.2 ⟨has, others⟩, ?_, located⟩
      rw [List.flatMap_cons, List.append_assoc]

end

/-- elements are accepted up to a violation, and what stands there goes on with none -/
theorem wrongElements_iff {order : ArrayOrder} {levels : Nat} {nesting : Nesting} {body : Bytes}
    {names : List String} :
    WrongElements order levels nesting body names ↔ ∃ (es : List Element) (rest : Bytes),
      (∀ e ∈ es, e.Has (Acceptable order levels nesting)) ∧
        body = es.flatMap Element.bytes ++ rest ∧
          Halts (Reader.WrongAt order levels nesting) rest names := by
  constructor
  · intro wrong
    cases wrong with
    | list has stuck => exact ⟨_, _, has, rfl, .stuck stuck⟩
    | payload has tagged free wrong =>
      exact ⟨_, _, has, rfl, .payload tagged free (.inl ⟨rfl, wrong⟩)⟩
    | @inside _ _ _ t _ _ _ _ _ has free encloses enters wrong =>
      exact ⟨_, _, has, rfl, .payload t.tag_ne_zero free
        (.inr ⟨t, _, _, _, rfl, encloses, enters, wrong, rfl⟩)⟩
  · rintro ⟨es, rest, has, rfl, here⟩
    cases here with
    | stuck here => exact .list has here
    | payload tagged free here =>
      rcases here with ⟨rfl, wrong⟩ | ⟨t, segments, cs, path, rfl, encloses, enters, wrong, rfl⟩
      · exact .payload has tagged free wrong
      · exact .inside has free encloses enters wrong

theorem at_elements {order : ArrayOrder} {levels : Nat} {nesting : Nesting} {inner : Contents}
    (h : Reader.Reads order levels inner) {body : Bytes} {e : Error}
    (failed : elementsOf (readTagged order .document nesting inner) body = .error e) :
    e.At (WrongElements order levels nesting body) := by
  obtain ⟨es, rest, has, split, located⟩ :=
    readElements_error (Reader.accepts_tagged_acceptable h) (fun _ _ _ _ => Reader.at_tagged h)
      (Nat.lt_succ_self _) failed
  exact located.imp fun names here => wrongElements_iff.2 ⟨es, rest, has, split, here⟩

theorem reads_contents (config : Config) (levels : Nat) :
    Reader.Reads config.arrayOrder levels (contents config levels) := by
  refine ⟨fun _ _ => contents_eq_ok_iff, fun bs e failed => ?_⟩
  induction levels generalizing bs e with
  | zero =>
    injection failed with same
    exact same ▸ Error.at_error rfl .tooDeep
  | succ levels ih =>
    exact (at_elements ⟨fun _ _ => contents_eq_ok_iff, ih⟩ failed).imp fun names => .elements

/-! ### whole inputs -/

/-- a document that is too large is the one failure without a path -/
theorem front_error {ceiling : Nat} {bs : Bytes} {e : Error}
    (failed : front ceiling bs = .error e) : (∃ f : Fault, f.ofReading ∧ e = f.error) ∨
      ∃ declared, e = .documentTooLarge declared ceiling := by
  rcases Nat.lt_or_ge bs.length 4 with short | enough
  · rw [front_of_lt short] at failed
    injection failed with same
    exact .inl ⟨_, rfl, same.symm⟩
  rw [front_of_le enough] at failed
  rcases declaredLength_cases ceiling (Bytes.toInt32 (bs.take 4)) with
    ⟨-, known⟩ | ⟨declared, -, -, ⟨-, known⟩ | ⟨-, known⟩⟩
  · rw [known] at failed
    injection failed with same
    exact .inl ⟨_, rfl, same.symm⟩
  · rw [known] at failed
    injection failed with same
    exact .inr ⟨declared, same.symm⟩
  · rw [known] at failed
    change (if _ then _ else _) = _ at failed
    split at failed
    · injection failed with same
      exact .inl ⟨_, rfl, same.symm⟩
    · cases failed

namespace Config

variable {config : Config} {shape : Shape} {nesting : Nesting} {bs : Bytes} {e : Error}

/-- the shape decides how fields are held, and not whether they can be read -/
theorem decode_eq_error_iff : config.decode shape nesting bs = .error e ↔
    config.fields .document nesting bs = .error e := by
  rw [decode, Except.map_eq_error_iff]
  cases shape with
  | document => rfl
  | map => rw [fields_toMaps, Except.map_eq_error_iff]

theorem fields_error (failed : config.fields .document nesting bs = .error e) :
    e.At (WrongInput config nesting bs) ∨ WrongInput config nesting bs [] ∧
      ∃ declared, e = .documentTooLarge declared config.maxDocumentSize := by
  rw [fields_eq, Except.bind_eq_error_iff] at failed
  rcases failed with failed | ⟨p, front, failed⟩
  · have wrong : WrongInput config nesting bs [] := by
      refine .front fun p prefixed delimited => Nat.lt_of_not_le fun fits => ?_
      rw [front_eq_ok_iff.2 ⟨prefixed, delimited, fits⟩] at failed
      cases failed
    rcases front_error failed with ⟨fault, reading, rfl⟩ | large
    · exact .inl (Error.at_error reading wrong)
    · exact .inr ⟨wrong, large⟩
  · obtain ⟨prefixed, delimited, fits⟩ := front_eq_ok_iff.1 front
    have located := at_elements (reads_contents config (config.maxNestingDepth - 1)) failed
    exact .inl (located.imp fun names => .elements prefixed delimited fits)

end Config

end Bson
