import Bson.Proofs.Wire.RoundTrip
import Bson.Proofs.Wire.Unambiguous

/-!
# Canonical bytes

The decoder takes more than the encoder writes: a text of length zero, any subtype of binary data,
any byte for false, and arrays with any names.

* `IsCanonical`         a payload that has none of these freedoms, said of its own bytes;
* `Within`              the elements of a document at every level, through embedded documents,
                        arrays and scopes (`container?`);
* `Canonical`           bytes whose elements are canonical at every level;
* `IsScalar.written_iff`, `array_written_iff`, `codeWithScope_written_iff`  the payloads, type by
                        type;
* `IsPayload.written_iff`  a payload is written as it was read exactly if it is canonical, and all
                        that stands inside it;
* `Document.encode_eq_iff_canonical`  so a document is encoded to the bytes that it was decoded from
                        exactly if they are canonical, whether names are repeated or not.
-/

namespace Bson

namespace Grammar

def textLength (bs : Bytes) : Int := (Bytes.toInt32 (bs.take 4)).toInt

/-- texts declare a terminator, binary data has the subtype zero, a boolean is zero or one, and the
items of an array are numbered as they stand -/
def IsCanonical (t : ElementType) (payload : Bytes) : Prop :=
  match t with
  | .string | .javaScript | .symbol | .dbPointer => 1 ≤ textLength payload
  | .codeWithScope => 1 ≤ textLength (payload.drop 4)
  | .binary => payload[4]? = some 0
  | .boolean => payload = [0] ∨ payload = [1]
  | .array => ∀ es, HasElements .numeric payload es →
      es.map Element.name = (List.range es.length).map Decimal.ofNat
  | _ => True

/-- the bytes of the document inside a payload; a scope stands behind a length and a text -/
def container? (t : ElementType) (payload : Bytes) : Option Bytes :=
  match t with
  | .embeddedDocument | .array => some payload
  | .codeWithScope => some (payload.drop (8 + (textLength (payload.drop 4)).toNat))
  | _ => none

/-- the element stands in the document, at some level -/
inductive Within : Bytes → Element → Prop
  | top {bs : Bytes} {es : List Element} {e : Element} :
      HasElements .numeric bs es → e ∈ es → Within bs e
  | inside {bs cs : Bytes} {es : List Element} {e inner : Element} :
      HasElements .numeric bs es → e ∈ es → container? e.type e.payload = some cs →
      Within cs inner → Within bs inner

/-- every element at every level is canonical -/
def Canonical (bs : Bytes) : Prop := ∀ e, Within bs e → IsCanonical e.type e.payload

/-- a canonical payload, and canonical bytes inside it -/
def CanonicalThroughout (t : ElementType) (payload : Bytes) : Prop :=
  IsCanonical t payload ∧ ∀ cs, container? t payload = some cs → Canonical cs

theorem canonical_iff {bs : Bytes} {es : List Element} (h : HasElements .numeric bs es) :
    Canonical bs ↔ ∀ e ∈ es, CanonicalThroughout e.type e.payload := by
  constructor
  · intro canonical e he
    exact ⟨canonical e (.top h he), fun cs hcs inner hi => canonical inner (.inside h he hcs hi)⟩
  · intro throughout inner hi
    cases hi with
    | top h' hi =>
      rw [h'.unique h] at hi
      exact (throughout inner hi).1
    | inside h' he hcs hi =>
      rw [h'.unique h] at he
      exact (throughout _ he).2 _ hcs _ hi

theorem canonicalThroughout_iff_of_container {t : ElementType} {bs cs : Bytes}
    (h : container? t bs = some cs) :
    CanonicalThroughout t bs ↔ IsCanonical t bs ∧ Canonical cs := by
  unfold CanonicalThroughout
  rw [h]
  exact and_congr_right fun _ => ⟨fun all => all cs rfl, fun all _ h => Option.some.inj h ▸ all⟩

theorem canonicalThroughout_iff_of_scalar {t : ElementType} {bs : Bytes} {v : Value}
    (h : IsScalar t bs v) : CanonicalThroughout t bs ↔ IsCanonical t bs := by
  have leaf : container? t bs = none := by cases h <;> rfl
  unfold CanonicalThroughout
  rw [leaf]
  exact and_iff_left nofun

theorem canonicalThroughout_embeddedDocument_iff {bs : Bytes} :
    CanonicalThroughout .embeddedDocument bs ↔ Canonical bs :=
  (canonicalThroughout_iff_of_container rfl).trans (and_iff_right trivial)

/-! ### payloads without elements -/

theorem IsLength.eq_lengthBytes {w : Bytes} {n : Nat} (h : IsLength w n) :
    w = Writer.lengthBytes n := by
  have word : Bytes.toInt32 w = Int32.ofNat n := by
    rw [← Int32.toInt_inj, h.2, Int32.toInt_ofNat_of_lt h.lt]
  rw [Writer.lengthBytes, ← word, Bytes.ofInt32_toInt32 h.1]

theorem textLength_append {bs rest : Bytes} (h : 4 ≤ bs.length) :
    textLength (bs ++ rest) = textLength bs := by
  rw [textLength, List.take_append_of_le_length h, textLength]

theorem IsString.length_eq {bs : Bytes} {s : String} (h : IsString bs s) :
    bs.length = 4 + (textLength bs).toNat := by
  unfold textLength
  cases h with
  | text h =>
    rw [List.take_left' h.1, h.2, List.length_append, List.length_append, h.1,
      List.length_singleton, Int.toNat_natCast]
  | zero h =>
    rw [List.take_of_length_le (Nat.le_of_eq h.1), h.2, h.1]
    rfl

theorem IsString.written_iff {bs : Bytes} {s : String} (h : IsString bs s) :
    (Writer.string s).written = .ok bs ↔ 1 ≤ textLength bs := by
  have total := h.length_eq
  rw [Writer.written_string_iff]
  cases h with
  | @text w s h =>
    have declared : 1 ≤ textLength (w ++ (utf8 s ++ [0])) := by
      rw [textLength_append (Nat.le_of_eq h.1.symm), textLength,
        List.take_of_length_le (Nat.le_of_eq h.1), h.2]
      omega
    exact ⟨fun _ => declared, fun _ => ⟨h.lt, by rw [← h.eq_lengthBytes]⟩⟩
  | zero h =>
    constructor
    · intro hx
      obtain ⟨-, hbs⟩ := hx
      have longer := congrArg List.length hbs
      rw [h.1, List.length_append, Writer.length_lengthBytes] at longer
      exact absurd longer (by simp)
    · intro declared
      rw [h.1] at total
      omega

theorem dbPointer_written_iff {cs : Bytes} {collection : String} {id : ObjectId}
    (hs : IsString cs collection) :
    (writePayload (.dbPointer ⟨collection, id⟩)).written = .ok (cs ++ id.bytes) ↔
      IsCanonical .dbPointer (cs ++ id.bytes) := by
  have canonical : IsCanonical .dbPointer (cs ++ id.bytes) ↔ 1 ≤ textLength cs := by
    rw [← textLength_append hs.length_le]
    exact Iff.rfl
  rw [canonical, ← hs.written_iff, written_dbPointer_iff]
  constructor
  · intro hx
    obtain ⟨bs, text, same⟩ := hx
    rw [List.append_cancel_right same, text]
  · exact fun text => ⟨cs, text, rfl⟩

theorem binary_written_iff {w bs : Bytes} {subtype : UInt8} (hw : IsLength w bs.length) :
    (writePayload (.binary bs)).written = .ok (w ++ subtype :: bs) ↔
      IsCanonical .binary (w ++ subtype :: bs) := by
  have fifth : (w ++ subtype :: bs)[4]? = some subtype := by
    rw [List.getElem?_append_right (Nat.le_of_eq hw.1), hw.1]
    rfl
  show _ ↔ _[4]? = some 0
  rw [fifth, Option.some.injEq, written_binary_iff, ← hw.eq_lengthBytes, and_iff_right hw.lt,
    List.append_cancel_left_eq, List.cons.injEq, and_iff_left rfl]

theorem boolean_written_iff {b : UInt8} :
    (writePayload (.boolean (b == 1))).written = .ok [b] ↔ IsCanonical .boolean [b] := by
  show Except.ok [if b == 1 then 1 else 0] = Except.ok [b] ↔ [b] = [0] ∨ [b] = [1]
  rw [Except.ok.injEq, List.cons.injEq, List.cons.injEq, List.cons.injEq]
  simp only [and_true, beq_iff_eq]
  by_cases one : b = 1
  · rw [if_pos one]
    exact ⟨fun _ => .inr one, fun _ => one.symm⟩
  · rw [if_neg one]
    exact ⟨fun zero => .inl zero.symm, fun hb => (hb.resolve_right one).symm⟩

/-- the other types leave the bytes of a value no freedom -/
theorem IsScalar.written_iff {t : ElementType} {bs : Bytes} {v : Value} (h : IsScalar t bs v) :
    (writePayload v).written = .ok bs ↔ IsCanonical t bs := by
  cases h with
  | string hs | javaScript hs | symbol hs =>
    rw [writePayload]
    exact hs.written_iff
  | dbPointer hs => exact dbPointer_written_iff hs
  | binary hw => exact binary_written_iff hw
  | boolean => exact boolean_written_iff
  | regex hp ho =>
    obtain ⟨pattern⟩ := hp
    obtain ⟨options⟩ := ho
    exact ⟨fun _ => trivial, fun _ => written_regex_iff.2 ⟨⟨pattern, options⟩, rfl⟩⟩
  | double width =>
    exact ⟨fun _ => trivial, fun _ => congrArg Except.ok (Bytes.ofUInt64_toUInt64 width)⟩
  | dateTime width | timestamp width | int64 width =>
    exact ⟨fun _ => trivial, fun _ => congrArg Except.ok (Bytes.ofInt64_toInt64 width)⟩
  | int32 width =>
    exact ⟨fun _ => trivial, fun _ => congrArg Except.ok (Bytes.ofInt32_toInt32 width)⟩
  | objectId | undefined | null | minKey | maxKey => exact ⟨fun _ => trivial, fun _ => rfl⟩

/-! ### elements -/

/-- elements are written as they were read if all their payloads are: no two payloads can be
mistaken for each other, wherever one ends -/
theorem fields_written_iff {es : List Element} (h : ∀ e ∈ es, e.Has (IsPayload .numeric)) :
    (writeFields (es.map Element.field)).written = .ok (es.flatMap Element.bytes) ↔
      ∀ e ∈ es, (writePayload e.value).written = .ok e.payload := by
  induction es with
  | nil => exact ⟨fun _ => nofun, fun _ => written_nil_iff.2 rfl⟩
  | cons e es ih =>
    obtain ⟨⟨free, payload⟩, more⟩ := List.forall_mem_cons.1 h
    have tag := payload.elementType_eq
    rw [List.forall_mem_cons, ← ih more, Element.flatMap_bytes_cons]
    show (writeFields ((e.name, e.value) :: es.map Element.field)).written = _ ↔ _
    rw [written_cons_iff, tag]
    constructor
    · intro hx
      obtain ⟨cs, rest, -, hcs, hrest, same⟩ := hx
      have again := isPayload_of_written payload.plain hcs
      rw [tag] at again
      have behind := List.append_cancel_left (List.cons.inj same).2
      obtain ⟨rfl, -, rfl⟩ := payload.unique again behind
      exact ⟨hcs, hrest⟩
    · intro hx
      obtain ⟨hcs, hrest⟩ := hx
      exact ⟨e.payload, es.flatMap Element.bytes, free, hcs, hrest, rfl⟩

theorem document_written_iff {bs : Bytes} {es : List Element} (delimited : Delimited bs)
    (h : HasElements .numeric bs es) :
    (Writer.enclosed (writeFields (es.map Element.field))).written = .ok bs ↔
      ∀ e ∈ es, (writePayload e.value).written = .ok e.payload := by
  have total : bs.length = 4 + (es.flatMap Element.bytes).length + 1 := by
    have behind := congrArg List.length h.1
    have front := delimited.1
    unfold Reader.smallestDocument at front
    rw [List.length_drop, List.length_append, List.length_singleton] at behind
    omega
  rw [Writer.written_enclosed_iff (appends_fields _), ← fields_written_iff h.2]
  constructor
  · intro hx
    obtain ⟨out, hout, -, rfl⟩ := hx
    have behind := h.1
    rw [List.drop_left' (Writer.length_lengthBytes _)] at behind
    rw [hout, List.append_cancel_right behind]
  · intro hout
    refine ⟨_, hout, total ▸ delimited.2.lt, ?_⟩
    rw [← h.1, ← total, ← delimited.2.eq_lengthBytes, List.take_append_drop]

theorem document_written_iff_canonical {bs : Bytes} {es : List Element} (delimited : Delimited bs)
    (h : HasElements .numeric bs es)
    (payload : ∀ e ∈ es, (writePayload e.value).written = .ok e.payload ↔
      CanonicalThroughout e.type e.payload) :
    (Writer.enclosed (writeFields (es.map Element.field))).written = .ok bs ↔ Canonical bs := by
  rw [document_written_iff delimited h, canonical_iff h]
  exact forall₂_congr payload

/-! ### arrays -/

theorem names_numbered (i : Nat) (items : List Value) :
    (numbered i items).map Prod.fst = (List.range' i items.length).map Decimal.ofNat := by
  induction items generalizing i with
  | nil => rfl
  | cons v rest ih =>
    rw [numbered, List.map_cons, ih, List.length_cons, List.range'_succ, List.map_cons]

theorem numbered_of_names {i : Nat} {fs : Fields Value}
    (h : fs.map Prod.fst = (List.range' i fs.length).map Decimal.ofNat) :
    fs = numbered i (fs.map Prod.snd) := by
  induction fs generalizing i with
  | nil => rfl
  | cons f rest ih =>
    rw [List.length_cons, List.range'_succ, List.map_cons, List.map_cons] at h
    obtain ⟨name, names⟩ := List.cons.inj h
    rw [List.map_cons, numbered, ← ih names, ← name]

/-- the items of an array are numbered as they stand if writing them gives their names back -/
theorem isCanonical_array_iff {bs : Bytes} {es : List Element} {gs : Fields Value}
    (delimited : Delimited bs) (h : HasElements .numeric bs es)
    (arranged : ArrayOrder.numeric.Arranged (es.map Element.field) gs) :
    IsCanonical .array bs ↔ es.map Element.field = numbered 0 (gs.map Prod.snd) := by
  have names : (es.map Element.field).map Prod.fst = es.map Element.name := by
    rw [List.map_map]
    rfl
  have unique : IsCanonical .array bs ↔
      es.map Element.name = (List.range es.length).map Decimal.ofNat := by
    constructor
    · exact fun canonical => canonical es h
    · intro canonical es' h'
      rwa [h'.unique h]
  rw [unique, List.range_eq_range']
  constructor
  · intro canonical
    have few : 0 + ((es.map Element.field).map Prod.snd).length ≤ 2 ^ 64 := by
      have hdoc := isDocument_iff_elements.2 ⟨delimited, es, h, rfl⟩
      have h1 := hdoc.length_le
      have h2 := hdoc.length_lt
      rw [List.length_map]
      omega
    have numbers : es.map Element.field = numbered 0 ((es.map Element.field).map Prod.snd) :=
      numbered_of_names (by rw [names, canonical, List.length_map])
    have ordered := numbered_ordered few
    rw [← numbers] at ordered
    rw [arranged.unique (.of_ordered ordered)]
    exact numbers
  · intro numbers
    have count := congrArg List.length numbers
    rw [List.length_map, length_numbered] at count
    rw [← names, numbers, names_numbered, count]

/-- an array is written as it was read if its items are, under the names that they have -/
theorem array_written_iff {bs : Bytes} {es : List Element} {gs : Fields Value}
    (delimited : Delimited bs) (hes : HasElements .numeric bs es)
    (arranged : ArrayOrder.numeric.Arranged (es.map Element.field) gs)
    (document : (Writer.enclosed (writeFields (es.map Element.field))).written = .ok bs ↔
      Canonical bs) :
    (writePayload (.array (gs.map Prod.snd))).written = .ok bs ↔
      CanonicalThroughout .array bs := by
  have hdoc := isDocument_iff_elements.2 ⟨delimited, es, hes, rfl⟩
  obtain ⟨-, inside⟩ := Value.everywhere_iff.1 (IsPayload.array hdoc arranged).plain
  have numbers := isCanonical_array_iff delimited hes arranged
  rw [canonicalThroughout_iff_of_container rfl, writePayload_array]
  constructor
  · intro written
    have items (f) (hf : f ∈ numbered 0 (gs.map Prod.snd)) (cs)
        (hcs : (writePayload f.2).written = .ok cs) :=
      isPayload_of_written (inside f.2 (mem_numbered hf).1) hcs
    have same := hdoc.unique (isDocument_of_enclosed items written)
    rw [← same, document] at written
    exact ⟨numbers.2 same, written⟩
  · intro hx
    obtain ⟨canonical, throughout⟩ := hx
    rw [← numbers.1 canonical, document]
    exact throughout

/-! ### scopes -/

section

variable {w cs ds : Bytes} {n : Nat} {code : String} {scope : Fields Value}

theorem container?_codeWithScope (hw : IsLength w n) (hs : IsString cs code) :
    container? .codeWithScope (w ++ (cs ++ ds)) = some ds := by
  have text : 8 + (textLength (cs ++ ds)).toNat = (w ++ cs).length := by
    rw [textLength_append hs.length_le, List.length_append, hw.1, hs.length_eq]
    omega
  unfold container?
  rw [List.drop_left' hw.1, text, ← List.append_assoc, List.drop_left]

theorem isCanonical_codeWithScope_iff (hw : IsLength w n) (hs : IsString cs code) :
    IsCanonical .codeWithScope (w ++ (cs ++ ds)) ↔ 1 ≤ textLength cs := by
  show 1 ≤ textLength ((w ++ (cs ++ ds)).drop 4) ↔ _
  rw [List.drop_left' hw.1, textLength_append hs.length_le]

theorem codeWithScope_written_iff (hw : IsLength w (4 + cs.length + ds.length))
    (hs : IsString cs code)
    (document : (Writer.enclosed (writeFields scope)).written = .ok ds ↔ Canonical ds) :
    (writePayload (.codeWithScope code scope)).written = .ok (w ++ (cs ++ ds)) ↔
      CanonicalThroughout .codeWithScope (w ++ (cs ++ ds)) := by
  rw [canonicalThroughout_iff_of_container (container?_codeWithScope hw hs),
    isCanonical_codeWithScope_iff hw hs, ← hs.written_iff, ← document, written_codeWithScope_iff]
  constructor
  · intro hx
    obtain ⟨cs', ds', text, written, -, same⟩ := hx
    have behind := congrArg (List.drop 4) same
    rw [List.drop_left' hw.1, List.drop_left' (Writer.length_lengthBytes _)] at behind
    obtain ⟨rfl, -, rfl⟩ := Reader.accepts_string.unique hs (isString_of_written text) behind
    exact ⟨text, written⟩
  · intro hx
    obtain ⟨text, written⟩ := hx
    exact ⟨cs, ds, text, written, hw.lt, by rw [← hw.eq_lengthBytes]⟩

end

/-! ### all payloads -/

/-- a payload is written as it was read exactly if it is canonical throughout -/
theorem IsPayload.written_iff {t : ElementType} {bs : Bytes} {v : Value}
    (h : IsPayload .numeric t bs v) :
    (writePayload v).written = .ok bs ↔ CanonicalThroughout t bs := by
  induction v using Value.childInduction generalizing t bs with
  | step v ih =>
    -- the document inside, whose fields are the children of the value in some order
    have document {cs : Bytes} {es : List Element} (delimited : Delimited cs)
        (hes : HasElements .numeric cs es)
        (children : ∀ f ∈ es.map Element.field, f.2 ∈ v.children) :=
      document_written_iff_canonical delimited hes fun e he =>
        ih e.value (children e.field (List.mem_map_of_mem he)) (hes.2 e he).2
    cases h with
    | scalar h => rw [h.written_iff, canonicalThroughout_iff_of_scalar h]
    | embeddedDocument hdoc =>
      obtain ⟨delimited, es, hes, rfl⟩ := isDocument_iff_elements.1 hdoc
      rw [writePayload, canonicalThroughout_embeddedDocument_iff]
      exact document delimited hes fun _ => List.mem_map_of_mem
    | array hdoc arranged =>
      obtain ⟨delimited, es, hes, rfl⟩ := isDocument_iff_elements.1 hdoc
      exact array_written_iff delimited hes arranged (document delimited hes fun f hf =>
        List.mem_map_of_mem (arranged.perm.mem_iff.2 hf))
    | codeWithScope hw hs hdoc =>
      obtain ⟨delimited, es, hes, rfl⟩ := isDocument_iff_elements.1 hdoc
      exact codeWithScope_written_iff hw hs
        (document delimited hes fun _ => List.mem_map_of_mem)

end Grammar

namespace Document

open Grammar

/-- **Byte identity**: a document that was decoded from all of some bytes is encoded to the same
bytes exactly if they are canonical at every level. The names of its fields do not enter. -/
theorem encode_eq_iff_canonical {bs : Bytes} {d : Document}
    (whole : (Bytes.toInt32 (bs.take 4)).toInt = bs.length)
    (decoded : Config.standard.decodeDocument .nested bs = .ok d) :
    d.encode = .ok ⟨bs⟩ ↔ Canonical bs := by
  rw [Config.decodeDocument, Config.fields_nested] at decoded
  obtain ⟨p, hp, hd⟩ := Except.bind_eq_ok_iff.1 decoded
  obtain ⟨⟨rest, rfl⟩, delimited, -⟩ := front_eq_ok_iff.1 hp
  have nothing : rest = [] := by
    rw [List.take_append_of_le_length (Nat.le_of_succ_le delimited.1), delimited.2.2,
      List.length_append] at whole
    exact List.eq_nil_of_length_eq_zero (by omega)
  subst nothing
  rw [List.append_nil]
  have hdoc := ((contents_eq_ok_iff delimited).1 hd).1
  have written := (IsPayload.embeddedDocument hdoc).written_iff
  rw [canonicalThroughout_embeddedDocument_iff] at written
  rw [← written]
  exact encode_eq_ok_iff

/-- a repeated name and an array in canonical bytes, and a text that declares no terminator -/
theorem encode_eq_iff_canonical_repeated_name :
    let bs : Bytes := [34, 0, 0, 0, 4, 97, 0, 17, 0, 0, 0, 8, 48, 0, 1, 2, 49, 0, 1, 0, 0, 0, 0, 0,
      5, 97, 0, 1, 0, 0, 0, 0, 7, 0]
    let cs : Bytes := [21, 0, 0, 0, 2, 97, 0, 0, 0, 0, 0, 5, 97, 0, 1, 0, 0, 0, 0, 7, 0]
    Canonical bs ∧ ¬ Canonical cs := by
  intro bs cs
  have encoded : encode [("a", .array [.boolean true, .string ""]), ("a", .binary [7])] =
      .ok ⟨bs⟩ := rfl
  have decoded := Config.decodeDocument_of_isDocument (isDocument_of_encode rfl encoded)
    (by decide : bs.length ≤ Config.standard.maxDocumentSize) (by decide)
  have lenient : Config.standard.decodeDocument .nested cs =
      .ok [("a", .string ""), ("a", .binary [7])] := rfl
  refine ⟨(encode_eq_iff_canonical rfl decoded).1 encoded, fun canonical => ?_⟩
  have same := (encode_eq_iff_canonical rfl lenient).2 canonical
  injection same with same
  injection same with same
  exact absurd same (by decide)

end Document

end Bson
