import Bson.Proofs.Wire.Encoding
import Bson.Proofs.Wire.Limits
import Bson.Proofs.Wire.Size

/-!
# Encoding and decoding

* `Document.decode_encode`  what the encoder writes of a plain document is read as that document, as
                        far as the limits go;
* `Grammar.IsPayload.wireSize_le`  written again, a value takes at most five times the bytes that
                        it was read from;
* `Document.encode_decoded`  so what was decoded is encoded again, and what is encoded then is
                        decoded and encoded as it is.
-/

namespace Bson

open Grammar

/-! ### documents of the grammar -/

namespace Config

variable {config : Config} {p : Bytes} {d : Document}

theorem decodeDocument_of_small (h : IsDocument config.arrayOrder p d)
    (small : p.length ≤ config.maxDocumentSize) :
    config.decodeDocument .nested p =
      contents config (max 1 config.maxNestingDepth) .document p := by
  have all : front config.maxDocumentSize p = .ok p :=
    front_eq_ok_iff.2 ⟨List.prefix_refl p, h.delimited, small⟩
  rw [decodeDocument, fields_nested, all]
  rfl

theorem decodeDocument_of_large (h : IsDocument config.arrayOrder p d)
    (large : config.maxDocumentSize < p.length) :
    config.decodeDocument .nested p =
      .error (.documentTooLarge p.length config.maxDocumentSize) := by
  rw [decodeDocument, fields_nested, front_eq_tooLarge h.delimited large]
  rfl

theorem decodeDocument_of_isDocument (h : IsDocument config.arrayOrder p d)
    (small : p.length ≤ config.maxDocumentSize)
    (shallow : Document.depth d ≤ max 1 config.maxNestingDepth) :
    config.decodeDocument .nested p = .ok d := by
  rw [decodeDocument_of_small h small]
  exact (contents_eq_ok_iff h.delimited).2 ⟨h, shallow⟩

end Config

namespace Document

/-! ### what was encoded -/

theorem isDocument_of_encode {d : Document} (plain : d.plain) {r : RawDocument}
    (h : d.encode = .ok r) : IsDocument .numeric r.bytes d := by
  obtain ⟨out, hout, rfl⟩ := Except.map_eq_ok_iff.1 h
  obtain ⟨-, inside⟩ := Value.everywhere_iff.1 plain
  refine isDocument_of_enclosed (fun f hf cs hcs => ?_) hout
  exact isPayload_of_written (inside f.2 (List.mem_map_of_mem hf)) hcs

/-- **Round trip**: the encoding of a plain document is decoded to the same document exactly if its
length keeps the ceiling and its depth the limit; above the ceiling, and below it beyond the limit,
there is one error each. -/
theorem decode_encode {d : Document} {r : RawDocument} {config : Config} (plain : d.plain)
    (encoded : d.encode = .ok r) (numeric : config.arrayOrder = .numeric) :
    (config.decodeDocument .nested r.bytes = .ok d ↔
      r.bytes.length ≤ config.maxDocumentSize ∧ d.depth ≤ max 1 config.maxNestingDepth) ∧
    (config.maxDocumentSize < r.bytes.length →
      config.decodeDocument .nested r.bytes =
        .error (.documentTooLarge r.bytes.length config.maxDocumentSize)) ∧
    (r.bytes.length ≤ config.maxDocumentSize → max 1 config.maxNestingDepth < d.depth →
      ∃ path, config.decodeDocument .nested r.bytes =
        .error (.located path (.invalidDocument (.nestedTooDeep config.maxNestingDepth)))) := by
  have h := isDocument_of_encode plain encoded
  rw [← numeric] at h
  have large := Config.decodeDocument_of_large h
  refine ⟨⟨fun read => ?_, fun ⟨small, shallow⟩ => ?_⟩, large, fun small deep => ?_⟩
  · have small : r.bytes.length ≤ config.maxDocumentSize := by
      refine Nat.le_of_not_lt fun too => ?_
      rw [large too] at read
      cases read
    rw [Config.decodeDocument_of_small h small] at read
    exact ⟨small, ((contents_eq_ok_iff h.delimited).1 read).2⟩
  · exact Config.decodeDocument_of_isDocument h small shallow
  · obtain ⟨_, ⟨path, rfl⟩, refused⟩ := contents_tooDeep h deep
    refine ⟨path, ?_⟩
    rw [Config.decodeDocument_of_small h small, refused]

/-- a scope in an array, at the limit, beyond it, and above the ceiling -/
theorem decode_encode_three_levels :
    let d : Document := [("a", .array [.codeWithScope "f" [("b", .null)]]), ("a", .null)]
    let bs : Bytes := [37, 0, 0, 0, 4, 97, 0, 26, 0, 0, 0, 15, 48, 0, 18, 0, 0, 0, 2, 0, 0, 0, 102,
      0, 8, 0, 0, 0, 10, 98, 0, 0, 0, 10, 97, 0, 0]
    (Config.mk 37 3 .numeric).decodeDocument .nested bs = .ok d ∧
      (Config.mk 36 3 .numeric).decodeDocument .nested bs = .error (.documentTooLarge 37 36) ∧
      ∃ path, (Config.mk 37 2 .numeric).decodeDocument .nested bs =
        .error (.located path (.invalidDocument (.nestedTooDeep 2))) := by
  intro d bs
  have plain : d.plain := rfl
  have encoded : d.encode = .ok ⟨bs⟩ := rfl
  refine ⟨?_, ?_, ?_⟩
  · exact (decode_encode plain encoded rfl).1.2 ⟨by decide, by decide⟩
  · exact (decode_encode plain encoded rfl).2.1 (by decide)
  · exact (decode_encode plain encoded rfl).2.2 (by decide) (by decide)

end Document

/-! ### growth -/

namespace Grammar

variable {order : ArrayOrder}

theorem IsString.wireSize_le {bs : Bytes} {s : String} (h : IsString bs s) :
    Value.wireSizeOfText s ≤ bs.length + 1 := by
  unfold Value.wireSizeOfText
  cases h with
  | text h =>
    rw [List.length_append, h.1, List.length_append, List.length_singleton]
    omega
  | zero h =>
    rw [h.1]
    decide

theorem IsScalar.wireSize_le {t : ElementType} {bs : Bytes} {v : Value} (h : IsScalar t bs v) :
    v.wireSize ≤ 5 * bs.length := by
  cases h with
  | string hs | javaScript hs | symbol hs =>
    have h1 := hs.wireSize_le
    have h2 := hs.length_le
    rw [Value.wireSize]
    omega
  | dbPointer hs =>
    have h1 := hs.wireSize_le
    have h2 := hs.length_le
    rw [Value.wireSize, List.length_append, ObjectId.length_bytes]
    dsimp only
    omega
  | binary hw =>
    rw [Value.wireSize, List.length_append, hw.1, List.length_cons]
    omega
  | regex hp ho =>
    cases hp
    cases ho
    rw [Value.wireSize, List.length_append, List.length_append, List.length_append,
      List.length_singleton]
    dsimp only
    omega
  | objectId =>
    rw [Value.wireSize, ObjectId.length_bytes]
    decide
  | double hl | dateTime hl | timestamp hl | int64 hl =>
    rw [Value.wireSize, hl]
    decide
  | int32 hl =>
    rw [Value.wireSize, hl]
    decide
  | boolean =>
    rw [Value.wireSize, List.length_singleton]
    decide
  | undefined | null | minKey | maxKey =>
    rw [Value.wireSize]
    decide

/-- elements do not grow by more than five times if their payloads do not, as fields and as items
with indices of at most seven digits -/
theorem IsElements.wireSize_le_of {es : Bytes} {fs : Fields Value}
    (payload : ∀ f ∈ fs, ∀ t cs, IsPayload order t cs f.2 → cs.length ≤ es.length →
      f.2.wireSize ≤ 5 * cs.length)
    (h : IsElements order es fs) :
    Value.wireSizeOfFields fs ≤ 5 * es.length ∧
      9 * fs.length + (fs.map fun f => f.2.wireSize).sum ≤ 5 * es.length := by
  induction fs generalizing es with
  | nil =>
    rw [Value.wireSizeOfFields]
    exact ⟨Nat.zero_le _, Nat.zero_le _⟩
  | cons f fs ih =>
    cases h with
    | @cons t bs cs rest name v _ hn hp hr =>
      obtain ⟨first, others⟩ := List.forall_mem_cons.1 payload
      simp only [List.length_cons, List.length_append] at first others ⊢
      have grown := first t cs hp (by omega)
      obtain ⟨h1, h2⟩ := ih (fun g hg t cs hp hl => others g hg t cs hp (by omega)) hr
      have name' : (utf8 name).length + 1 = bs.length := by
        cases hn
        rw [List.length_append, List.length_singleton]
      rw [Value.wireSizeOfFields, List.map_cons, List.sum_cons]
      dsimp only at grown ⊢
      omega

/-- written again, a value takes at most five times the bytes that it was read from -/
theorem IsPayload.wireSize_le {t : ElementType} {bs : Bytes} {v : Value}
    (h : IsPayload order t bs v) (small : bs.length ≤ 2 * 10 ^ 7) : v.wireSize ≤ 5 * bs.length := by
  induction v using Value.childInduction generalizing t bs with
  | step v ih =>
    have document {cs : Bytes} {fs : Fields Value} (hdoc : IsDocument order cs fs)
        (hl : cs.length ≤ bs.length) (children : ∀ f ∈ fs, f.2 ∈ v.children) :
        4 + Value.wireSizeOfFields fs + 1 ≤ 5 * cs.length ∧
          5 + 9 * fs.length + (fs.map fun f => f.2.wireSize).sum ≤ 5 * cs.length := by
      obtain ⟨-, es, hes, helements⟩ := isDocument_iff.1 hdoc
      have total := congrArg List.length hes
      rw [List.length_drop, List.length_append, List.length_singleton] at total
      obtain ⟨h1, h2⟩ := helements.wireSize_le_of fun f hf t cs hp hcs =>
        ih f.2 (children f hf) hp (by omega)
      omega
    cases h with
    | scalar h => exact h.wireSize_le
    | embeddedDocument hdoc =>
      rw [Value.wireSize]
      exact (document hdoc (Nat.le_refl _) fun f hf => List.mem_map_of_mem hf).1
    | @array _ fs gs hdoc arranged =>
      have children : ∀ f ∈ fs, f.2 ∈ (Value.array (gs.map Prod.snd)).children :=
        fun f hf => List.mem_map_of_mem (arranged.perm.mem_iff.2 hf)
      have h1 := (document hdoc (Nat.le_refl _) children).2
      -- an item takes two bytes or more, so the indices stay below ten million
      have few := hdoc.length_le
      exact Nat.le_trans (Value.wireSize_array_le_of_perm arranged.perm (by omega)) h1
    | codeWithScope hw hs hdoc =>
      rw [List.length_append, List.length_append] at small ⊢
      have h1 := (document hdoc (by rw [List.length_append, List.length_append]; omega)
        fun f hf => List.mem_map_of_mem hf).1
      have h2 := hs.wireSize_le
      have h3 := hs.length_le
      have h4 := hw.1
      rw [Value.wireSize]
      omega

theorem IsPayload.plain {t : ElementType} {bs : Bytes} {v : Value} (h : IsPayload order t bs v) :
    v.plain := by
  refine IsPayload.everywhere (fun h => ?_) h
  cases h with
  | scalar h => cases h <;> rfl
  | _ => rfl

theorem IsPayload.nulFree {t : ElementType} {bs : Bytes} {v : Value} (h : IsPayload order t bs v) :
    v.nulFree := by
  have names {bs : Bytes} {fs : Fields Value} (hdoc : IsDocument order bs fs) :
      (fs.all fun f => decide (0 ∉ utf8 f.1)) = true :=
    List.all_eq_true.2 fun f hf => decide_eq_true (hdoc.of_mem hf).1
  refine IsPayload.everywhere (fun h => ?_) h
  cases h with
  | embeddedDocument hdoc => exact names hdoc
  | codeWithScope _ _ hdoc => exact names hdoc
  | array => rfl
  | scalar h =>
    cases h with
    | regex hp ho =>
      cases hp with
      | mk hp =>
        cases ho with
        | mk ho => exact decide_eq_true ⟨hp, ho⟩
    | _ => rfl

end Grammar

/-! ### what was decoded -/

namespace Document

/-- **Normal form**: what was decoded is encoded; its encoding is decoded to the same document, with
the same nesting limit, and encoded to the same bytes. -/
theorem encode_decoded {bs : Bytes} {d : Document}
    (decoded : Config.standard.decodeDocument .nested bs = .ok d) :
    ∃ r, d.encode = .ok r ∧ ∀ config : Config, config.arrayOrder = .numeric →
      config.maxNestingDepth = Config.standard.maxNestingDepth →
        r.bytes.length ≤ config.maxDocumentSize →
          config.decodeDocument .nested r.bytes = .ok d ∧
            ∀ d', config.decodeDocument .nested r.bytes = .ok d' → d'.encode = .ok r := by
  unfold Config.decodeDocument at decoded
  rw [Config.fields_nested] at decoded
  obtain ⟨p, hp, hd⟩ := Except.bind_eq_ok_iff.1 decoded
  obtain ⟨-, delimited, small⟩ := front_eq_ok_iff.1 hp
  obtain ⟨hdoc, depth⟩ := (contents_eq_ok_iff delimited).1 hd
  have payload := IsPayload.embeddedDocument hdoc
  have ceiling : p.length ≤ 16 * 1024 * 1024 := small
  have size := payload.wireSize_le (by omega)
  obtain ⟨out, hout⟩ := exists_written payload.nulFree (by omega)
  rw [writePayload] at hout
  have encoded : d.encode = .ok ⟨out⟩ := Except.map_eq_ok_iff.2 ⟨out, hout, rfl⟩
  refine ⟨⟨out⟩, encoded, fun config numeric limit fits => ?_⟩
  have again := isDocument_of_encode payload.plain encoded
  rw [← numeric] at again
  rw [← limit] at depth
  have read := Config.decodeDocument_of_isDocument again fits depth
  refine ⟨read, fun d' hd' => ?_⟩
  rw [read] at hd'
  injection hd' with hd'
  rw [← hd', encoded]

/-- a text of length zero and a boolean byte of seven, which are written otherwise than they
stood -/
theorem encode_decoded_lenient :
    let bs : Bytes := [16, 0, 0, 0, 2, 115, 0, 0, 0, 0, 0, 8, 98, 0, 7, 0]
    let d : Document := [("s", .string ""), ("b", .boolean false)]
    Config.standard.decodeDocument .nested bs = .ok d ∧
      ∃ r, d.encode = .ok r ∧ r.bytes ≠ bs ∧
        (Config.mk r.bytes.length 100 .numeric).decodeDocument .nested r.bytes = .ok d := by
  intro bs d
  have decoded : Config.standard.decodeDocument .nested bs = .ok d := rfl
  have written : d.encode =
      .ok ⟨[17, 0, 0, 0, 2, 115, 0, 1, 0, 0, 0, 0, 8, 98, 0, 0, 0]⟩ := rfl
  obtain ⟨r, encoded, again⟩ := encode_decoded decoded
  have read := again (Config.mk r.bytes.length 100 .numeric) rfl rfl (Nat.le_refl _)
  refine ⟨decoded, r, encoded, ?_, read.1⟩
  rw [written] at encoded
  injection encoded with encoded
  rw [← encoded]
  decide

end Document

end Bson
