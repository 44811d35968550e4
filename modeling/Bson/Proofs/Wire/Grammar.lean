import Mathlib.Algebra.Group.Nat.Defs
import Bson.Proofs.Array.Order
import Bson.Proofs.Value.Children

/-!
# The grammar of the wire format

    document ::= int32 e_list "\x00"
    element  ::= type_byte e_name payload
    e_name   ::= cstring
    string   ::= int32 (byte*) "\x00"
    binary   ::= int32 subtype (byte*)
    code_w_s ::= int32 string document

Each nonterminal is a relation between bytes and what they denote, without a reader:

* `Grammar.IsLength`, `Grammar.Delimited`  four bytes that spell a length, and bytes that begin with
                        their own;
* `Grammar.IsName`, `Grammar.IsString`  a text up to a zero byte, and a text behind its length, for
                        which a length of zero without any bytes stands too;
* `Grammar.IsScalar`    the payloads without elements;
* `Grammar.IsDocument`, `Grammar.IsElements`, `Grammar.IsPayload`  documents, their elements, and
                        the payloads of the element types, arrays in a given order of the items.

The length of a container counts all of its bytes, so the terminator is the last of them
(`isDocument_iff`). An element takes two bytes or more (`IsElements.length_le`).
-/

namespace Bson

/-- the element types whose payload holds elements -/
def ElementType.isContainer : ElementType → Bool
  | .embeddedDocument | .array | .codeWithScope => true
  | _ => false

namespace Grammar

/-- four bytes that spell the length `n` -/
def IsLength (w : Bytes) (n : Nat) : Prop := w.length = 4 ∧ (Bytes.toInt32 w).toInt = n

theorem isLength_ofInt32 {n : Nat} (h : n < 2 ^ 31) :
    IsLength (Bytes.ofInt32 (Int32.ofNat n)) n :=
  ⟨Bytes.length_ofInt32 _, by rw [Bytes.toInt32_ofInt32, Int32.toInt_ofNat_of_lt h]⟩

/-- bytes that declare their own number, and enough of them for a document -/
def Delimited (bs : Bytes) : Prop :=
  Reader.smallestDocument ≤ bs.length ∧ IsLength (bs.take 4) bs.length

/-- a text without a zero byte, and a zero byte after it -/
inductive IsName : Bytes → String → Prop
  | mk {s : String} : 0 ∉ utf8 s → IsName (utf8 s ++ [0]) s

/-- a text with its length in front, which counts the zero byte after it -/
inductive IsString : Bytes → String → Prop
  | text {w : Bytes} {s : String} : IsLength w ((utf8 s).length + 1) →
      IsString (w ++ (utf8 s ++ [0])) s
  | zero {w : Bytes} : IsLength w 0 → IsString w ""

/-- the payloads without elements; a boolean is true for the byte 1 alone -/
inductive IsScalar : ElementType → Bytes → Value → Prop
  | double {bs : Bytes} : bs.length = 8 → IsScalar .double bs (.double ⟨Bytes.toUInt64 bs⟩)
  | string {bs : Bytes} {s : String} : IsString bs s → IsScalar .string bs (.string s)
  | binary {w bs : Bytes} {subtype : UInt8} : IsLength w bs.length →
      IsScalar .binary (w ++ subtype :: bs) (.binary bs)
  | undefined : IsScalar .undefined [] .undefined
  | objectId {id : ObjectId} : IsScalar .objectId id.bytes (.objectId id)
  | boolean {b : UInt8} : IsScalar .boolean [b] (.boolean (b == 1))
  | dateTime {bs : Bytes} : bs.length = 8 → IsScalar .dateTime bs (.dateTime (Bytes.toInt64 bs))
  | null : IsScalar .null [] .null
  | regex {bs cs : Bytes} {pattern options : String} : IsName bs pattern → IsName cs options →
      IsScalar .regex (bs ++ cs) (.regex ⟨pattern, options⟩)
  | dbPointer {bs : Bytes} {collection : String} {id : ObjectId} : IsString bs collection →
      IsScalar .dbPointer (bs ++ id.bytes) (.dbPointer ⟨collection, id⟩)
  | javaScript {bs : Bytes} {code : String} : IsString bs code →
      IsScalar .javaScript bs (.javaScript code)
  | symbol {bs : Bytes} {s : String} : IsString bs s → IsScalar .symbol bs (.symbol s)
  | int32 {bs : Bytes} : bs.length = 4 → IsScalar .int32 bs (.int32 (Bytes.toInt32 bs))
  | timestamp {bs : Bytes} : bs.length = 8 → IsScalar .timestamp bs (.timestamp (Bytes.toInt64 bs))
  | int64 {bs : Bytes} : bs.length = 8 → IsScalar .int64 bs (.int64 (Bytes.toInt64 bs))
  | minKey : IsScalar .minKey [] .minKey
  | maxKey : IsScalar .maxKey [] .maxKey

mutual

/-- a document: its length, its elements, a zero byte -/
inductive IsDocument (order : ArrayOrder) : Bytes → Fields Value → Prop
  | mk {w body : Bytes} {fs : Fields Value} : IsLength w (4 + body.length + 1) →
      IsElements order body fs → IsDocument order (w ++ (body ++ [0])) fs

inductive IsElements (order : ArrayOrder) : Bytes → Fields Value → Prop
  | nil : IsElements order [] []
  | cons {t : ElementType} {bs cs rest : Bytes} {name : String} {v : Value} {fs : Fields Value} :
      IsName bs name → IsPayload order t cs v → IsElements order rest fs →
      IsElements order (t.tag :: (bs ++ (cs ++ rest))) ((name, v) :: fs)

inductive IsPayload (order : ArrayOrder) : ElementType → Bytes → Value → Prop
  | scalar {t : ElementType} {bs : Bytes} {v : Value} : IsScalar t bs v → IsPayload order t bs v
  | embeddedDocument {bs : Bytes} {fs : Fields Value} : IsDocument order bs fs →
      IsPayload order .embeddedDocument bs (.document fs)
  | array {bs : Bytes} {fs gs : Fields Value} : IsDocument order bs fs → order.Arranged fs gs →
      IsPayload order .array bs (.array (gs.map Prod.snd))
  | codeWithScope {w bs cs : Bytes} {code : String} {scope : Fields Value} :
      IsLength w (4 + bs.length + cs.length) → IsString bs code → IsDocument order cs scope →
      IsPayload order .codeWithScope (w ++ (bs ++ cs)) (.codeWithScope code scope)

end

/-! ### lengths -/

theorem IsName.length_pos {bs : Bytes} {s : String} (h : IsName bs s) : 1 ≤ bs.length := by
  cases h
  simp

theorem IsString.length_le {bs : Bytes} {s : String} (h : IsString bs s) : 4 ≤ bs.length := by
  cases h with
  | text h =>
    rw [List.length_append, h.1]
    omega
  | zero h => exact Nat.le_of_eq h.1.symm

theorem IsLength.lt {w : Bytes} {n : Nat} (h : IsLength w n) : n < 2 ^ 31 := by
  have h1 := Int32.toInt_lt (Bytes.toInt32 w)
  have h2 := h.2
  omega

variable {order : ArrayOrder}

theorem isDocument_iff {bs : Bytes} {fs : Fields Value} :
    IsDocument order bs fs ↔
      Delimited bs ∧ ∃ body, bs.drop 4 = body ++ [0] ∧ IsElements order body fs := by
  constructor
  · intro hx
    obtain ⟨h, e⟩ := hx
    rename_i w body
    have hl : (w ++ (body ++ [0])).length = 4 + body.length + 1 := by
      simp only [List.length_append, h.1, List.length_singleton]
      omega
    refine ⟨⟨?_, ?_⟩, body, ?_, e⟩
    · rw [hl, Reader.smallestDocument]
      omega
    · rwa [hl, List.take_left' h.1]
    · rw [List.drop_left' h.1]
  · intro hx
    obtain ⟨⟨-, h⟩, body, hb, e⟩ := hx
    have hl : bs.length = 4 + body.length + 1 := by
      have h1 := h.1
      have h2 := congrArg List.length hb
      rw [List.length_take] at h1
      simp only [List.length_drop, List.length_append, List.length_singleton] at h2
      omega
    rw [← List.take_append_drop 4 bs, hb]
    exact .mk (hl ▸ h) e

theorem IsDocument.delimited {bs : Bytes} {fs : Fields Value} (h : IsDocument order bs fs) :
    Delimited bs :=
  (isDocument_iff.1 h).1

theorem IsElements.length_le {bs : Bytes} {fs : Fields Value} (h : IsElements order bs fs) :
    2 * fs.length ≤ bs.length := by
  induction fs generalizing bs with
  | nil => simp
  | cons f fs ih =>
    cases h with
    | cons hn _ hr =>
      have h1 := ih hr
      have h2 := hn.length_pos
      simp only [List.length_cons, List.length_append]
      omega

theorem IsDocument.length_le {bs : Bytes} {fs : Fields Value} (h : IsDocument order bs fs) :
    2 * fs.length + 5 ≤ bs.length := by
  obtain ⟨-, body, hbody, helements⟩ := isDocument_iff.1 h
  have h1 := helements.length_le
  have h2 := congrArg List.length hbody
  rw [List.length_drop, List.length_append, List.length_singleton] at h2
  omega

theorem IsDocument.length_lt {bs : Bytes} {fs : Fields Value} (h : IsDocument order bs fs) :
    bs.length < 2 ^ 31 :=
  h.delimited.2.lt

theorem IsElements.of_mem {es : Bytes} {fs : Fields Value} (h : IsElements order es fs)
    {f : String × Value} (hf : f ∈ fs) :
    0 ∉ utf8 f.1 ∧ ∃ t cs, IsPayload order t cs f.2 ∧ cs.length ≤ es.length := by
  induction fs generalizing es with
  | nil => cases hf
  | cons g fs ih =>
    cases h with
    | @cons t bs cs rest name v _ hn hp hr =>
      simp only [List.length_cons, List.length_append]
      rcases List.mem_cons.1 hf with rfl | hf
      · cases hn with
        | mk h0 => exact ⟨h0, t, cs, hp, by omega⟩
      · obtain ⟨h0, t, cs', hp, hl⟩ := ih hr hf
        exact ⟨h0, t, cs', hp, by omega⟩

theorem IsDocument.of_mem {bs : Bytes} {fs : Fields Value} (h : IsDocument order bs fs)
    {f : String × Value} (hf : f ∈ fs) :
    0 ∉ utf8 f.1 ∧ ∃ t cs, IsPayload order t cs f.2 ∧ cs.length ≤ bs.length := by
  obtain ⟨-, body, hbody, helements⟩ := isDocument_iff.1 h
  obtain ⟨h0, t, cs, hp, hl⟩ := helements.of_mem hf
  have h1 := congrArg List.length hbody
  rw [List.length_drop, List.length_append] at h1
  exact ⟨h0, t, cs, hp, by omega⟩

/-- the values inside a payload have payloads of their own, and no longer ones -/
theorem IsPayload.of_child {t : ElementType} {bs : Bytes} {v w : Value} (h : IsPayload order t bs v)
    (hw : w ∈ v.children) : ∃ t' cs, IsPayload order t' cs w ∧ cs.length ≤ bs.length := by
  cases h with
  | scalar h => cases h <;> cases hw
  | embeddedDocument hdoc =>
    obtain ⟨f, hf, rfl⟩ := List.mem_map.1 hw
    exact (hdoc.of_mem hf).2
  | array hdoc arranged =>
    obtain ⟨f, hf, rfl⟩ := List.mem_map.1 hw
    exact (hdoc.of_mem (arranged.perm.mem_iff.1 hf)).2
  | codeWithScope hw' hs hdoc =>
    obtain ⟨f, hf, rfl⟩ := List.mem_map.1 hw
    obtain ⟨-, t', cs, hp, hl⟩ := hdoc.of_mem hf
    refine ⟨t', cs, hp, ?_⟩
    rw [List.length_append, List.length_append]
    omega

theorem IsPayload.everywhere {p : Value → Bool}
    (here : ∀ {t bs v}, IsPayload order t bs v → p v = true) {t : ElementType} {bs : Bytes}
    {v : Value} (h : IsPayload order t bs v) : v.everywhere p := by
  induction v using Value.childInduction generalizing t bs with
  | step v ih =>
    refine Value.everywhere_iff.2 ⟨here h, fun w hw => ?_⟩
    obtain ⟨t', cs, hp, -⟩ := h.of_child hw
    exact ih w hw hp

theorem IsScalar.depth_eq {t : ElementType} {bs : Bytes} {v : Value} (h : IsScalar t bs v) :
    v.depth = 0 := by
  cases h <;> rfl

theorem IsPayload.elementType_eq {t : ElementType} {bs : Bytes} {v : Value}
    (h : IsPayload order t bs v) : v.elementType = t := by
  cases h with
  | scalar h => cases h <;> rfl
  | _ => rfl

theorem isPayload_iff_of_scalar {t : ElementType} (ht : t.isContainer = false) {bs : Bytes}
    {v : Value} : IsPayload order t bs v ↔ IsScalar t bs v := by
  constructor
  · intro h
    cases h with
    | scalar h => exact h
    | _ => cases ht
  · exact .scalar

end Grammar

end Bson
