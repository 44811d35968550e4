import Bson.Proofs.Host.PassThrough
import Bson.Proofs.Wire.RoundTrip
import Bson.Proofs.Wire.Unambiguous

/-!
# Decoded documents as host records

A document given as a host record is rebuilt entry by entry, and repeated names are merged on the
way, although decoding keeps them.

* `Value.merged_eq_iff`  merging changes exactly the values in which a name is repeated;
* `Value.everywhere_merged`, `Value.wireSize_merged_le`  it makes no new names, texts or bytes, and
                        what it makes takes no more room;
* `Value.toValue_toHost_of_plain`  a plain value comes back merged;
* `Document.toHost_of_decoded`  so a decoded document is encoded both by itself and as a host
                        record, and the two agree exactly if no name in it is repeated;
* `Document.toHost_repeated`  bytes that the encoder wrote, for which they do not.
-/

namespace Bson

open Grammar

/-! ### merged values -/

namespace Value

theorem exists_of_mem_mergedFields {fs : Fields Value} {g : String × Value}
    (h : g ∈ Fields.lastAtFirst (fs.mapValues merged)) : ∃ f ∈ fs, g = (f.1, f.2.merged) := by
  obtain ⟨f, hf, rfl⟩ := List.mem_map.1 (Fields.mem_lastAtFirst h)
  exact ⟨f, hf, rfl⟩

theorem exists_child_of_merged {v w : Value} (h : w ∈ v.merged.children) :
    ∃ u ∈ v.children, w = u.merged := by
  have fields {fs : Fields Value}
      (hw : w ∈ (Fields.lastAtFirst (fs.mapValues merged)).map Prod.snd) :
      ∃ u ∈ fs.map Prod.snd, w = u.merged := by
    obtain ⟨g, hg, rfl⟩ := List.mem_map.1 hw
    obtain ⟨f, hf, rfl⟩ := exists_of_mem_mergedFields hg
    exact ⟨f.2, List.mem_map_of_mem hf, rfl⟩
  cases v with
  | document fs =>
    rw [merged_document] at h
    exact fields h
  | codeWithScope code scope =>
    rw [merged_codeWithScope] at h
    exact fields h
  | map fs =>
    rw [merged_map, children, Fields.values_mapValues] at h
    obtain ⟨f, hf, rfl⟩ := List.mem_map.1 h
    exact ⟨f.2, List.mem_map_of_mem hf, rfl⟩
  | array items =>
    rw [merged_array] at h
    obtain ⟨u, hu, rfl⟩ := List.mem_map.1 h
    exact ⟨u, hu, rfl⟩
  | _ => exact absurd h List.not_mem_nil

theorem everywhere_merged {p : Value → Bool} (kept : ∀ v, p v → p v.merged) {v : Value}
    (h : v.everywhere p) : v.merged.everywhere p := by
  induction v using childInduction with
  | step v ih =>
    obtain ⟨here, inside⟩ := everywhere_iff.1 h
    refine everywhere_iff.2 ⟨kept v here, fun w hw => ?_⟩
    obtain ⟨u, hu, rfl⟩ := exists_child_of_merged hw
    exact ih u hu (inside u hu)

theorem plain_merged {v : Value} (h : v.plain) : v.merged.plain := by
  refine everywhere_merged (fun v hv => ?_) h
  cases v with
  | document | codeWithScope | array => rfl
  | map | raw => cases hv
  | _ => rfl

theorem nulFree_merged {v : Value} (h : v.nulFree) : v.merged.nulFree := by
  refine everywhere_merged (fun v hv => ?_) h
  have names {fs gs : Fields Value} (origin : ∀ g ∈ gs, ∃ f ∈ fs, g = (f.1, f.2.merged))
      (free : (fs.all fun f => decide (0 ∉ utf8 f.1)) = true) :
      (gs.all fun f => decide (0 ∉ utf8 f.1)) = true := by
    refine List.all_eq_true.2 fun g hg => ?_
    obtain ⟨f, hf, rfl⟩ := origin g hg
    exact List.all_eq_true.1 free f hf
  cases v with
  | document fs =>
    rw [merged_document]
    exact names (fun _ => exists_of_mem_mergedFields) hv
  | codeWithScope code scope =>
    rw [merged_codeWithScope]
    exact names (fun _ => exists_of_mem_mergedFields) hv
  | map fs =>
    rw [merged_map]
    refine names (fun g hg => ?_) hv
    obtain ⟨f, hf, rfl⟩ := List.mem_map.1 hg
    exact ⟨f, hf, rfl⟩
  | _ => exact hv

theorem wireSize_merged_le (v : Value) : v.merged.wireSize ≤ v.wireSize := by
  induction v using childInduction with
  | step v ih =>
    have fields {fs : Fields Value} (hfs : v.children = fs.map Prod.snd) :
        wireSizeOfFields (fs.mapValues merged) ≤ wireSizeOfFields fs ∧
          wireSizeOfFields (Fields.lastAtFirst (fs.mapValues merged)) ≤ wireSizeOfFields fs := by
      rw [hfs, List.forall_mem_map] at ih
      have each := wireSizeOfFields_mapValues_le ih
      refine ⟨each, Nat.le_trans ?_ each⟩
      rw [wireSizeOfFields_eq, wireSizeOfFields_eq (fs.mapValues merged)]
      exact Fields.sum_lastAtFirst_le _ _
    cases v with
    | document fs =>
      rw [merged_document, wireSize, wireSize]
      have := (fields rfl).2
      omega
    | codeWithScope code scope =>
      rw [merged_codeWithScope, wireSize, wireSize]
      have := (fields rfl).2
      omega
    | map fs =>
      rw [merged_map, wireSize, wireSize]
      have := (fields rfl).1
      omega
    | array items =>
      rw [merged_array, wireSize, wireSize]
      have : wireSizeOfItems 0 (items.map merged) ≤ wireSizeOfItems 0 items :=
        wireSizeOfItems_map_le ih 0
      omega
    | _ => exact Nat.le_refl _

/-- merging changes exactly the values in which a document or a scope repeats a name -/
theorem merged_eq_iff {v : Value} : v.merged = v ↔ v.distinct := by
  induction v using childInduction with
  | step v ih =>
    rw [distinct, everywhere_iff]
    -- a container stays as it is if it repeats no name and its children stay as they are
    have fields {fs : Fields Value} (hfs : v.children = fs.map Prod.snd) :
        (∀ f ∈ fs, f.2.merged = f.2) ↔ ∀ w ∈ v.children, w.distinct := by
      rw [hfs, List.forall_mem_map] at ih ⊢
      exact forall₂_congr ih
    cases v with
    | document fs =>
      rw [merged_document, document.injEq, Fields.lastAtFirst_mapValues_eq_self_iff, fields rfl,
        decide_eq_true_iff]
      rfl
    | codeWithScope code scope =>
      rw [merged_codeWithScope, codeWithScope.injEq, Fields.lastAtFirst_mapValues_eq_self_iff,
        fields rfl, decide_eq_true_iff]
      exact and_iff_right rfl
    | map fs =>
      rw [merged_map, map.injEq, Fields.mapValues_eq_self_iff, fields rfl]
      exact (and_iff_right rfl).symm
    | array items =>
      have each : items.map merged = items.map id ↔ ∀ w ∈ items, w.merged = w := List.map_inj_left
      rw [List.map_id] at each
      rw [merged_array, array.injEq, each]
      exact (forall₂_congr ih).trans (and_iff_right rfl).symm
    | _ => exact ⟨fun _ => ⟨rfl, List.forall_mem_nil _⟩, fun _ => rfl⟩

/-! ### through a host record and back -/

theorem toValue_toHost_of_plain {v : Value} (plain : v.plain) :
    v.toHost.toValue = .ok v.merged := by
  induction v using childInduction with
  | step v ih =>
    obtain ⟨here, inside⟩ := everywhere_iff.1 plain
    have entries {fs : Fields Value} (hfs : v.children = fs.map Prod.snd) :
        (Host.map (entriesOfFields fs)).toValue =
          .ok (.document (Fields.lastAtFirst (fs.mapValues merged))) := by
      rw [hfs, List.forall_mem_map] at ih inside
      have each := toValue_entries (f := id) fun e he => ih e he (inside e he)
      rwa [Fields.mapValues_id] at each
    cases v with
    | document fs => rw [toHost, entries rfl, merged_document]
    | codeWithScope code scope =>
      rw [toHost, toValue_wrapped (toValue_pair rfl (entries rfl)), merged_codeWithScope]
      rfl
    | array items =>
      have each : itemValues 0 (hostItems (items.map id)) = _ :=
        itemValues_hostItems (fun w hw => ih w hw (inside w hw)) 0
      rw [List.map_id] at each
      rw [toHost, Host.toValue, each, merged_array]
      rfl
    | map | raw => cases here
    | _ => exact toValue_toHost_of_scalar rfl

end Value

/-! ### decoded documents -/

namespace Document

def merged (d : Document) : Document := Fields.lastAtFirst (d.mapValues Value.merged)

def distinct (d : Document) : Bool := (Value.document d).distinct

theorem merged_value (d : Document) : (Value.document d).merged = .document d.merged :=
  Value.merged_document d

theorem merged_eq_iff {d : Document} : d.merged = d ↔ d.distinct := by
  rw [distinct, ← Value.merged_eq_iff, merged_value, Value.document.injEq]

theorem exists_encode {d : Document} (free : (Value.document d).nulFree)
    (small : (Value.document d).wireSize < 2 ^ 31) : ∃ r, d.encode = .ok r := by
  obtain ⟨out, hout⟩ := exists_written free small
  exact ⟨⟨out⟩, encode_eq_ok_iff.2 hout⟩

theorem eq_of_encode {d e : Document} {r : RawDocument} (plain : d.plain) (plain' : e.plain)
    (encoded : d.encode = .ok r) (encoded' : e.encode = .ok r) : d = e :=
  (isDocument_of_encode plain encoded).unique (isDocument_of_encode plain' encoded')

theorem exists_payload_of_decoded {config : Config} {bs : Bytes} {d : Document}
    (decoded : config.decodeDocument .nested bs = .ok d) :
    ∃ p, IsPayload config.arrayOrder .embeddedDocument p (.document d) ∧
      p.length ≤ config.maxDocumentSize := by
  rw [Config.decodeDocument, Config.fields_nested] at decoded
  obtain ⟨p, hp, hd⟩ := Except.bind_eq_ok_iff.1 decoded
  obtain ⟨-, delimited, small⟩ := front_eq_ok_iff.1 hp
  exact ⟨p, .embeddedDocument ((contents_eq_ok_iff delimited).1 hd).1, small⟩

/-- **Decoded documents as host records**: what was decoded is encoded by itself and as a host
record, which becomes the document with its repeated names merged. The document and its bytes come
back as they were exactly if no name was repeated. -/
theorem toHost_of_decoded {bs : Bytes} {d : Document}
    (decoded : Config.standard.decodeDocument .nested bs = .ok d) :
    let h := (Value.document d).toHost
    h.toDocument = .ok d.merged ∧ (h.toDocument = .ok d ↔ d.distinct) ∧
      ∃ r s, d.encode = .ok r ∧ h.encode = .ok s ∧ d.merged.encode = .ok s ∧
        (s = r ↔ d.distinct) := by
  intro h
  obtain ⟨p, payload, small⟩ := exists_payload_of_decoded decoded
  have ceiling : p.length ≤ 16 * 1024 * 1024 := small
  have size := payload.wireSize_le (by omega)
  -- merging keeps what makes the document fit for encoding
  have size' := Value.wireSize_merged_le (.document d)
  have plain' := Value.plain_merged payload.plain
  have free' := Value.nulFree_merged payload.nulFree
  rw [merged_value] at size' plain' free'
  obtain ⟨r, hr⟩ := exists_encode payload.nulFree (by omega)
  obtain ⟨s, hs⟩ := exists_encode free' (by omega)
  have rebuilt : h.toValue = .ok (.document d.merged) := by
    rw [Value.toValue_toHost_of_plain payload.plain, merged_value]
  have document : h.toDocument = .ok d.merged := by
    rw [Host.toDocument, rebuilt]
    rfl
  have encoded : h.encode = .ok s := by
    rw [Host.encode, rebuilt]
    exact hs
  refine ⟨document, ?_, r, s, hr, encoded, hs, ?_⟩
  · rw [document, Except.ok.injEq, merged_eq_iff]
  · rw [← merged_eq_iff]
    constructor
    · rintro rfl
      exact eq_of_encode plain' payload.plain hs hr
    · intro same
      rw [same, hr] at hs
      injection hs with hs
      exact hs.symm

/-- a scope in an array that repeats a name, and no name repeated outside it -/
theorem toHost_of_decoded_scope :
    let bs : Bytes := [37, 0, 0, 0, 4, 97, 0, 29, 0, 0, 0, 15, 48, 0, 21, 0, 0, 0, 2, 0, 0, 0, 102,
      0, 11, 0, 0, 0, 10, 115, 0, 255, 115, 0, 0, 0, 0]
    let d : Document := [("a", .array [.codeWithScope "f" [("s", .null), ("s", .minKey)]])]
    Config.standard.decodeDocument .nested bs = .ok d ∧
      (Value.document d).toHost.toDocument =
        .ok [("a", .array [.codeWithScope "f" [("s", .minKey)]])] ∧
      ∃ r s, d.encode = .ok r ∧ (Value.document d).toHost.encode = .ok s ∧ s ≠ r := by
  intro bs d
  have encoded : d.encode = .ok ⟨bs⟩ := rfl
  have decoded := Config.decodeDocument_of_isDocument (isDocument_of_encode rfl encoded)
    (by decide : bs.length ≤ Config.standard.maxDocumentSize) (by decide)
  obtain ⟨document, -, r, s, hr, hs, -, same⟩ := toHost_of_decoded decoded
  exact ⟨decoded, document, r, s, hr, hs, fun h => absurd (same.1 h) (by decide)⟩

/-- a decoded document with a repeated name comes back another one, with other bytes -/
theorem toHost_repeated :
    let bs : Bytes := [26, 0, 0, 0, 16, 97, 0, 1, 0, 0, 0, 16, 98, 0, 2, 0, 0, 0, 16, 97, 0, 3, 0,
      0, 0, 0]
    let d : Document := [("a", .int32 1), ("b", .int32 2), ("a", .int32 3)]
    let h := (Value.document d).toHost
    Config.standard.decodeDocument .nested bs = .ok d ∧ d.encode = .ok ⟨bs⟩ ∧
      h.toDocument = .ok [("a", .int32 3), ("b", .int32 2)] ∧
      h.encode = .ok ⟨[19, 0, 0, 0, 16, 97, 0, 3, 0, 0, 0, 16, 98, 0, 2, 0, 0, 0, 0]⟩ :=
  ⟨rfl, rfl, rfl, rfl⟩

end Document

end Bson
