import Bson.Proofs.Value.Totals
import Bson.Proofs.Wire.NoNest

/-!
# How much a document of a length can hold

* `Grammar.Fits`        a value for which there is room in the bytes of a payload: two bytes for each
                        element, those of names, texts and data, and seven for each level below
                        the first;
* `Grammar.fields_fit`  if the payloads of elements have room for their values, then the document
                        has room for the fields;
* `Grammar.IsPayload.fits`  so every payload has room for its value;
* `Config.decode_bounds`  and what is decoded, in either shape and nesting mode, is bounded by the
                        declared length and the nesting limit.
-/

namespace Bson

open Grammar

namespace Grammar

/-- there is room for the value in the bytes of its payload -/
def Fits (bs : Bytes) (v : Value) : Prop :=
  v.footprint ≤ bs.length ∧ 7 * v.depth ≤ bs.length + 2

theorem IsString.length_text_le {bs : Bytes} {s : String} (h : IsString bs s) :
    4 + (utf8 s).length ≤ bs.length := by
  cases h with
  | text h =>
    rw [List.length_append, h.1, List.length_append]
    omega
  | zero h => exact Nat.le_of_eq h.1.symm

theorem IsName.length_eq {bs : Bytes} {s : String} (h : IsName bs s) :
    bs.length = (utf8 s).length + 1 := by
  cases h
  rw [List.length_append, List.length_singleton]

theorem IsScalar.footprint_le {t : ElementType} {bs : Bytes} {v : Value} (h : IsScalar t bs v) :
    v.footprint ≤ bs.length := by
  cases h with
  | string hs | javaScript hs | symbol hs =>
    have := hs.length_text_le
    simp only [Value.footprint, Value.total]
    omega
  | dbPointer hs =>
    have := hs.length_text_le
    simp only [Value.footprint, Value.total, List.length_append]
    omega
  | binary hw =>
    simp only [Value.footprint, Value.total, List.length_append, List.length_cons]
    omega
  | regex hp ho =>
    have := hp.length_eq
    have := ho.length_eq
    simp only [Value.footprint, Value.total, List.length_append]
    omega
  | _ => exact Nat.zero_le _

theorem fields_fit {p : Bytes} {es : List Element}
    (h : p.drop 4 = es.flatMap Element.bytes ++ [0]) (fits : ∀ e ∈ es, Fits e.payload e.value) :
    Value.totalOfFields 2 1 (es.map Element.field) + 5 ≤ p.length ∧
      7 * Value.depthOfFields (es.map Element.field) + 5 ≤ p.length := by
  have inside : Value.totalOfFields 2 1 (es.map Element.field) ≤ (es.flatMap Element.bytes).length ∧
      7 * Value.depthOfFields (es.map Element.field) ≤ (es.flatMap Element.bytes).length := by
    clear h
    induction es with
    | nil => exact ⟨Nat.le_refl _, Nat.le_refl _⟩
    | cons e es ih =>
      obtain ⟨⟨small, shallow⟩, more⟩ := List.forall_mem_cons.1 fits
      obtain ⟨smallRest, shallowRest⟩ := ih more
      rw [Element.flatMap_bytes_cons, List.map_cons]
      simp only [Value.footprint] at small
      simp only [Element.field, Value.totalOfFields, Value.depthOfFields, List.length_cons,
        List.length_append, List.length_nil] at smallRest shallowRest ⊢
      omega
  have total := congrArg List.length h
  rw [List.length_drop, List.length_append, List.length_singleton] at total
  omega

theorem IsPayload.fits {order : ArrayOrder} {t : ElementType} {bs : Bytes} {v : Value}
    (h : IsPayload order t bs v) : Fits bs v := by
  induction v using Value.childInduction generalizing t bs with
  | step v ih =>
    have document {cs : Bytes} {fs : Fields Value} (hdoc : IsDocument order cs fs)
        (children : ∀ f ∈ fs, f.2 ∈ v.children) :
        Value.totalOfFields 2 1 fs + 5 ≤ cs.length ∧ 7 * Value.depthOfFields fs + 5 ≤ cs.length := by
      obtain ⟨-, es, ⟨hes, has⟩, rfl⟩ := isDocument_iff_elements.1 hdoc
      refine fields_fit hes fun e he => ?_
      exact ih e.value (children e.field (List.mem_map_of_mem he)) (has e he).2
    cases h with
    | scalar h =>
      refine ⟨h.footprint_le, ?_⟩
      rw [h.depth_eq]
      exact Nat.zero_le _
    | embeddedDocument hdoc =>
      obtain ⟨small, shallow⟩ := document hdoc fun f hf => List.mem_map_of_mem hf
      simp only [Fits, Value.footprint, Value.total, Value.depth]
      omega
    | @array _ fs gs hdoc arranged =>
      obtain ⟨small, shallow⟩ := document hdoc
        fun f hf => List.mem_map_of_mem (arranged.perm.mem_iff.2 hf)
      have items : Value.totalOfItems 2 1 (gs.map Prod.snd) ≤ Value.totalOfFields 2 1 fs :=
        Value.totalOfItems_le_of_perm arranged.perm
      have depth := (Value.depth_array_le_of_perm arranged.perm).2 (Nat.le_refl _)
      simp only [Fits, Value.footprint, Value.total]
      omega
    | codeWithScope hw hs hdoc =>
      obtain ⟨small, shallow⟩ := document hdoc fun f hf => List.mem_map_of_mem hf
      have code := hs.length_text_le
      simp only [Fits, Value.footprint, Value.total, Value.depth, List.length_append, hw.1]
      omega

end Grammar

namespace Config

variable {config : Config} {nesting : Nesting} {bs : Bytes}

/-- the elements of what is decoded fit into the front, and stay within the levels -/
theorem decodeDocument_fits {d : Document} (read : config.decodeDocument nesting bs = .ok d) :
    ∃ p, front config.maxDocumentSize bs = .ok p ∧
      Value.totalOfFields 2 1 d + 5 ≤ p.length ∧ 7 * Value.depthOfFields d + 5 ≤ p.length ∧
        Value.depthOfFields d ≤ config.maxNestingDepth - 1 := by
  have levels {es : List Element}
      (shallow : ∀ e ∈ es, e.value.depth ≤ config.maxNestingDepth - 1) :
      Value.depthOfFields (es.map Element.field) ≤ config.maxNestingDepth - 1 :=
    Value.depthOfFields_le_iff.2 (List.forall_mem_map.2 shallow)
  cases nesting with
  | nested =>
    obtain ⟨p, hp, es, hes, rfl, has⟩ := nested_eq_ok_iff.1 read
    obtain ⟨small, shallow⟩ := fields_fit hes fun e he => (has e he).2.1.fits
    exact ⟨p, hp, small, shallow, levels fun e he => (has e he).2.2⟩
  | noNest =>
    obtain ⟨p, hp, es, hes, rfl, has⟩ := noNest_eq_ok_iff.1 read
    have each (e) (he : e ∈ es) :
        Fits e.payload e.value ∧ e.value.depth ≤ config.maxNestingDepth - 1 := by
      have payload := (has e he).2
      unfold IsUnread at payload
      split at payload
      · rw [payload.2]
        exact ⟨⟨Nat.zero_le _, Nat.zero_le _⟩, Nat.zero_le _⟩
      · exact ⟨payload.1.fits, payload.2⟩
    obtain ⟨small, shallow⟩ := fields_fit hes fun e he => (each e he).1
    exact ⟨p, hp, small, shallow, levels fun e he => (each e he).2⟩

theorem exists_decodeDocument {shape : Shape} {v : Value}
    (read : config.decode shape nesting bs = .ok v) :
    ∃ d, config.decodeDocument nesting bs = .ok d ∧
      (v = .document d ∨ v = (Value.document d).toMaps) := by
  cases shape with
  | document =>
    obtain ⟨d, hd, rfl⟩ := Except.map_eq_ok_iff.1 read
    exact ⟨d, hd, .inl rfl⟩
  | map =>
    obtain ⟨fs, hfs, rfl⟩ := Except.map_eq_ok_iff.1 read
    rw [fields_toMaps] at hfs
    obtain ⟨d, hd, rfl⟩ := Except.map_eq_ok_iff.1 hfs
    refine ⟨d, hd, .inr ?_⟩
    rw [Value.toMaps_document, Document.toMaps, Value.toMapsInFields_eq]
    rfl

theorem decode_bounds {shape : Shape} {v : Value}
    (read : config.decode shape nesting bs = .ok v) :
    ∃ n, IsLength (bs.take 4) n ∧ n ≤ bs.length ∧
      v.depth ≤ max 1 config.maxNestingDepth ∧ v.depth ≤ 1 + (n - 5) / 7 ∧
        v.elementCount ≤ (n - 5) / 2 ∧ v.heldBytes < n := by
  obtain ⟨d, hd, made⟩ := exists_decodeDocument read
  obtain ⟨p, hp, small, shallow, levels⟩ := decodeDocument_fits hd
  obtain ⟨⟨rest, rfl⟩, ⟨least, length⟩, -⟩ := front_eq_ok_iff.1 hp
  have front4 : (p ++ rest).take 4 = p.take 4 :=
    List.take_append_of_le_length (Nat.le_of_succ_le least)
  have smaller : v.footprint ≤ (Value.document d).footprint ∧ v.depth ≤ (Value.document d).depth := by
    rcases made with rfl | rfl
    · exact ⟨Nat.le_refl _, Nat.le_refl _⟩
    · exact ⟨Value.total_toMaps_le _, Value.depth_toMaps_le _⟩
  have counted := v.footprint_eq
  simp only [Value.footprint, Value.total, Value.depth] at small smaller counted
  refine ⟨p.length, front4 ▸ length, by simp, ?_, ?_, ?_, ?_⟩ <;> omega

end Config

end Bson
