import Bson.Proofs.Shape.Maps
import Bson.Proofs.Wire.RoundTrip

/-!
# Maps in any order

The fields of a map have no order of their own: they are written as they are walked, so one value
has many encodings.

* `Value.IsMapShaped`   values of maps, arrays, scalars and code with a scope;
* `Value.Reorders`      a value with the fields of each map inside it walked in some order;
* `Value.toDocuments`   maps made documents with the fields as they were walked, which are written
                        alike (`writePayload_toDocuments`);
* `Reorders.toMaps_toDocuments`  made maps again, they are the value that was reordered;
* `DocumentMap.decode_encode_reordered`  so a map comes back from its encoding in every order.
-/

namespace Bson

mutual

/-- maps made documents, through maps, documents and arrays, with their fields as they stand -/
def Value.toDocuments : Value → Value
  | .document fs | .map fs => .document (toDocumentsInFields fs)
  | .array items => .array (toDocumentsInItems items)
  | v => v

def Value.toDocumentsInFields : List (String × Value) → List (String × Value)
  | [] => []
  | (name, v) :: rest => (name, v.toDocuments) :: toDocumentsInFields rest

def Value.toDocumentsInItems : List Value → List Value
  | [] => []
  | v :: rest => v.toDocuments :: toDocumentsInItems rest

end

namespace Value

theorem toDocumentsInFields_eq (fs : Fields Value) :
    toDocumentsInFields fs = fs.mapValues toDocuments := by
  induction fs with
  | nil => rfl
  | cons f rest ih =>
    rw [toDocumentsInFields, ih]
    rfl

theorem toDocumentsInItems_eq (items : List Value) :
    toDocumentsInItems items = items.map toDocuments := by
  induction items with
  | nil => rfl
  | cons v rest ih => rw [toDocumentsInItems, ih, List.map_cons]

theorem toDocuments_document (fs : Fields Value) :
    (document fs).toDocuments = document (fs.mapValues toDocuments) := by
  rw [toDocuments, toDocumentsInFields_eq]

theorem toDocuments_map (fs : Fields Value) :
    (map fs).toDocuments = document (fs.mapValues toDocuments) := by
  rw [toDocuments, toDocumentsInFields_eq]

theorem toDocuments_array (items : List Value) :
    (array items).toDocuments = array (items.map toDocuments) := by
  rw [toDocuments, toDocumentsInItems_eq]

theorem elementType_toDocuments (v : Value) : v.toDocuments.elementType = v.elementType := by
  cases v <;> rfl

/-- a value without anything inside is no map, and neither shape changes it -/
theorem unchanged_of_scalar {v : Value} (h : v.elementType.isContainer = false) :
    v.plain ∧ v.toDocuments = v ∧ v.toMaps = v := by
  cases v <;> first | exact ⟨rfl, rfl, rfl⟩ | cases h

/-! ### maps and documents are written alike -/

theorem writeFields_mapValues {f : Value → Value} {fs : Fields Value}
    (tag : ∀ v, (f v).elementType = v.elementType)
    (payload : ∀ g ∈ fs, writePayload (f g.2) = writePayload g.2) :
    writeFields (fs.mapValues f) = writeFields fs := by
  induction fs with
  | nil => rfl
  | cons g rest ih =>
    obtain ⟨first, more⟩ := List.forall_mem_cons.1 payload
    show writeFields ((g.1, f g.2) :: Fields.mapValues f rest) = _
    rw [writeFields, writeFields, tag, first, ih more]

theorem numbered_map (f : Value → Value) (i : Nat) (items : List Value) :
    numbered i (items.map f) = (numbered i items).mapValues f := by
  induction items generalizing i with
  | nil => rfl
  | cons v rest ih =>
    rw [List.map_cons, numbered, numbered, ih]
    rfl

theorem writePayload_toDocuments (v : Value) : writePayload v.toDocuments = writePayload v := by
  induction v using childInduction with
  | step v ih =>
    have fields {fs : Fields Value} (h : v.children = fs.map Prod.snd) :
        writeFields (fs.mapValues toDocuments) = writeFields fs := by
      exact writeFields_mapValues elementType_toDocuments fun f hf =>
        ih f.2 (mem_children_of_fields h hf)
    cases v with
    | document fs =>
      rw [toDocuments_document, writePayload, writePayload, fields rfl]
    | map fs =>
      rw [toDocuments_map, writePayload, writePayload, fields rfl]
    | array items =>
      rw [toDocuments_array, writePayload_array, writePayload_array, numbered_map,
        fields (map_snd_numbered 0 items).symm]
    | _ => rfl

/-! ### orders of the fields of maps -/

/-- a value of maps with each name once, arrays, scalars, and code with a scope without maps -/
inductive IsMapShaped : Value → Prop
  | scalar {v : Value} : v.elementType.isContainer = false → IsMapShaped v
  | map {fs : Fields Value} : Fields.Sorted fs → (∀ f ∈ fs, IsMapShaped f.2) →
      IsMapShaped (.map fs)
  | array {items : List Value} : (∀ v ∈ items, IsMapShaped v) → IsMapShaped (.array items)
  | codeWithScope {code : String} {scope : Document} : scope.plain →
      IsMapShaped (.codeWithScope code scope)

/-- the same value with the fields of each map in some order. A field stands here with its value
before and after: the order of a map is free at every level, that of everything else stays. -/
inductive Reorders : Value → Value → Prop
  | scalar {v : Value} : v.elementType.isContainer = false → Reorders v v
  | raw {doc : RawDocument} : Reorders (.raw doc) (.raw doc)
  | map {fs : Fields (Value × Value)} {gs : Fields Value} :
      (∀ f ∈ fs, Reorders f.2.1 f.2.2) → gs.Perm (fs.mapValues Prod.snd) →
      Reorders (.map (fs.mapValues Prod.fst)) (.map gs)
  | document {fs : Fields (Value × Value)} : (∀ f ∈ fs, Reorders f.2.1 f.2.2) →
      Reorders (.document (fs.mapValues Prod.fst)) (.document (fs.mapValues Prod.snd))
  | array {items : List (Value × Value)} : (∀ p ∈ items, Reorders p.1 p.2) →
      Reorders (.array (items.map Prod.fst)) (.array (items.map Prod.snd))
  | codeWithScope {code : String} {fs : Fields (Value × Value)} :
      (∀ f ∈ fs, Reorders f.2.1 f.2.2) →
      Reorders (.codeWithScope code (fs.mapValues Prod.fst))
        (.codeWithScope code (fs.mapValues Prod.snd))

namespace Reorders

variable {v w : Value}

theorem exists_twice {fs : Fields Value} (h : ∀ f ∈ fs, f.2.Reorders f.2) :
    ∃ gs : Fields (Value × Value), gs.mapValues Prod.fst = fs ∧ gs.mapValues Prod.snd = fs ∧
      ∀ g ∈ gs, g.2.1.Reorders g.2.2 :=
  ⟨fs.mapValues fun v => (v, v), (Fields.mapValues_mapValues ..).trans (Fields.mapValues_id fs),
    (Fields.mapValues_mapValues ..).trans (Fields.mapValues_id fs),
    Fields.forall_mem_mapValues.2 h⟩

theorem refl (v : Value) : v.Reorders v := by
  induction v using childInduction with
  | step v ih =>
    have fields {fs : Fields Value} (h : v.children = fs.map Prod.snd) :=
      exists_twice fun f (hf : f ∈ fs) => ih f.2 (mem_children_of_fields h hf)
    cases hc : v.elementType.isContainer with
    | false => exact .scalar hc
    | true =>
      cases v with
      | raw => exact .raw
      | document fs =>
        obtain ⟨gs, before, after, same⟩ := fields rfl
        have whole := Reorders.document same
        rwa [before, after] at whole
      | map fs =>
        obtain ⟨gs, before, after, same⟩ := fields rfl
        have whole := Reorders.map same (.refl _)
        rwa [before, after] at whole
      | codeWithScope code fs =>
        obtain ⟨gs, before, after, same⟩ := fields rfl
        have whole := @Reorders.codeWithScope code gs same
        rwa [before, after] at whole
      | array items =>
        have same : ∀ p ∈ items.map fun v => (v, v), p.1.Reorders p.2 := List.forall_mem_map.2 ih
        have whole := Reorders.array same
        rw [List.map_map, List.map_map] at whole
        rwa [show items.map (Prod.fst ∘ fun v => (v, v)) = items from List.map_id items,
          show items.map (Prod.snd ∘ fun v => (v, v)) = items from List.map_id items] at whole
      | _ => cases hc

theorem of_perm {fs gs : Fields Value} (h : gs.Perm fs) : (Value.map fs).Reorders (.map gs) := by
  obtain ⟨hs, before, after, same⟩ := exists_twice fun f (_ : f ∈ fs) => refl f.2
  rw [← after] at h
  have whole := Reorders.map same h
  rwa [before] at whole

/-! ### what no order changes -/

theorem wireSize_eq (h : v.Reorders w) : v.wireSize = w.wireSize := by
  have fields {fs : Fields (Value × Value)} (ih : ∀ f ∈ fs, f.2.1.wireSize = f.2.2.wireSize) :
      wireSizeOfFields (fs.mapValues Prod.fst) = wireSizeOfFields (fs.mapValues Prod.snd) := by
    rw [wireSizeOfFields_eq, wireSizeOfFields_eq]
    show (List.map _ (List.map _ fs)).sum = (List.map _ (List.map _ fs)).sum
    rw [List.map_map, List.map_map]
    exact congrArg List.sum (List.map_congr_left fun f hf => congrArg (_ + ·) (ih f hf))
  induction h with
  | scalar | raw => rfl
  | document _ ih => rw [wireSize, wireSize, fields ih]
  | map _ order ih =>
    rw [wireSize, wireSize, fields ih, wireSizeOfFields_eq, wireSizeOfFields_eq,
      (order.map _).sum_nat]
  | array _ ih => rw [wireSize, wireSize, wireSizeOfItems_congr ih]
  | codeWithScope _ ih => rw [wireSize, wireSize, fields ih]

theorem nulFree_iff (h : v.Reorders w) : v.nulFree ↔ w.nulFree := by
  have fields {fs : Fields (Value × Value)} (ih : ∀ f ∈ fs, f.2.1.nulFree ↔ f.2.2.nulFree) :
      (∀ f ∈ fs.mapValues Prod.fst, 0 ∉ utf8 f.1 ∧ f.2.nulFree) ↔
        ∀ f ∈ fs.mapValues Prod.snd, 0 ∉ utf8 f.1 ∧ f.2.nulFree := by
    rw [Fields.forall_mem_mapValues, Fields.forall_mem_mapValues]
    exact forall₂_congr fun f hf => and_congr_right fun _ => ih f hf
  induction h with
  | scalar | raw => exact Iff.rfl
  | document _ ih => rw [nulFree_document_iff, nulFree_document_iff, fields ih]
  | map _ order ih =>
    rw [nulFree_map_iff, nulFree_map_iff, fields ih]
    exact forall_congr' fun f => imp_congr_left order.mem_iff.symm
  | array _ ih =>
    rw [nulFree_array_iff, nulFree_array_iff, List.forall_mem_map, List.forall_mem_map]
    exact forall₂_congr ih
  | codeWithScope _ ih =>
    rw [nulFree_codeWithScope_iff, nulFree_codeWithScope_iff, fields ih]

theorem eq_of_plain (h : v.Reorders w) (plain : v.plain) : w = v := by
  have fields {fs : Fields (Value × Value)}
      (plain : ∀ w ∈ (fs.mapValues Prod.fst).map Prod.snd, w.plain)
      (ih : ∀ f ∈ fs, f.2.1.plain → f.2.2 = f.2.1) :
      fs.mapValues Prod.snd = fs.mapValues Prod.fst := by
    rw [Fields.values_mapValues, List.forall_mem_map] at plain
    exact Fields.mapValues_congr fun f hf => ih f hf (plain f hf)
  induction h with
  | scalar | raw => rfl
  | map => cases (everywhere_iff.1 plain).1
  | document _ ih => rw [fields (everywhere_iff.1 plain).2 ih]
  | codeWithScope _ ih => rw [fields (everywhere_iff.1 plain).2 ih]
  | array _ ih =>
    have inside := List.forall_mem_map.1 (everywhere_iff.1 plain).2
    rw [List.map_congr_left fun p hp => ih p hp (inside p hp)]

/-- the induction for values of maps: the fields of a map stand in order before, and their order is
free after; a scope stays as it is -/
@[elab_as_elim]
theorem shapedInduction {motive : Value → Value → Prop}
    (scalar : ∀ v, v.elementType.isContainer = false → motive v v)
    (map : ∀ (fs : Fields (Value × Value)) (gs : Fields Value),
      Fields.Sorted (fs.mapValues Prod.fst) → (∀ f ∈ fs, motive f.2.1 f.2.2) →
      gs.Perm (fs.mapValues Prod.snd) → motive (.map (fs.mapValues Prod.fst)) (.map gs))
    (array : ∀ items : List (Value × Value), (∀ p ∈ items, motive p.1 p.2) →
      motive (.array (items.map Prod.fst)) (.array (items.map Prod.snd)))
    (codeWithScope : ∀ (code : String) (scope : Document), scope.plain →
      motive (.codeWithScope code scope) (.codeWithScope code scope))
    (h : v.Reorders w) (shaped : v.IsMapShaped) : motive v w := by
  induction h with
  | scalar h => exact scalar _ h
  | raw | document =>
    cases shaped with
    | scalar h => cases h
  | map _ order ih =>
    cases shaped with
    | scalar h => cases h
    | map sorted inside =>
      have below := Fields.forall_mem_mapValues.1 inside
      exact map _ _ sorted (fun f hf => ih f hf (below f hf)) order
  | array _ ih =>
    cases shaped with
    | scalar h => cases h
    | array inside =>
      have below := List.forall_mem_map.1 inside
      exact array _ fun p hp => ih p hp (below p hp)
  | codeWithScope inside =>
    cases shaped with
    | scalar h => cases h
    | codeWithScope plain =>
      have scope := eq_of_plain (.document inside) plain
      injection scope with scope
      rw [scope]
      exact codeWithScope _ _ plain

/-! ### the documents that are read -/

theorem plain_toDocuments (h : v.Reorders w) (shaped : v.IsMapShaped) : w.toDocuments.plain := by
  refine shapedInduction ?scalar ?map ?array ?codeWithScope h shaped
  case scalar =>
    intro v hv
    obtain ⟨plain, same, -⟩ := unchanged_of_scalar hv
    rwa [same]
  case map =>
    intro fs gs _ ih order
    rw [toDocuments_map]
    refine everywhere_iff.2 ⟨rfl, ?_⟩
    rw [children, Fields.values_mapValues, List.forall_mem_map]
    intro g hg
    obtain ⟨f, hf, rfl⟩ := List.mem_map.1 (order.mem_iff.1 hg)
    exact ih f hf
  case array =>
    intro items ih
    rw [toDocuments_array]
    refine everywhere_iff.2 ⟨rfl, ?_⟩
    rwa [children, List.map_map, List.forall_mem_map]
  case codeWithScope =>
    intro code scope plain
    exact everywhere_iff.2 ⟨rfl, (everywhere_iff.1 plain).2⟩

theorem depth_toDocuments_le (h : v.Reorders w) (shaped : v.IsMapShaped) :
    w.toDocuments.depth ≤ v.depth := by
  refine shapedInduction ?scalar ?map ?array ?codeWithScope h shaped
  case scalar =>
    intro v hv
    rw [(unchanged_of_scalar hv).2.1]
  case map =>
    intro fs gs _ ih order
    have below := depthOfFields_le_iff.1 (Nat.le_refl (depthOfFields (fs.mapValues Prod.fst)))
    rw [Fields.forall_mem_mapValues] at below
    rw [toDocuments_map, depth, depth, Nat.add_le_add_iff_right, depthOfFields_le_iff,
      Fields.forall_mem_mapValues]
    intro g hg
    obtain ⟨f, hf, rfl⟩ := List.mem_map.1 (order.mem_iff.1 hg)
    exact Nat.le_trans (ih f hf) (below f hf)
  case array =>
    intro items ih
    have below := depthOfItems_le_iff.1 (Nat.le_refl (depthOfItems (items.map Prod.fst)))
    rw [List.forall_mem_map] at below
    rw [toDocuments_array, depth, depth, Nat.add_le_add_iff_right, depthOfItems_le_iff,
      List.map_map, List.forall_mem_map]
    exact fun p hp => Nat.le_trans (ih p hp) (below p hp)
  case codeWithScope => exact fun _ _ _ => Nat.le_refl _

/-- made maps again, they are the value: each name stands once, so merging in order undoes every
order -/
theorem toMaps_toDocuments (h : v.Reorders w) (shaped : v.IsMapShaped) :
    w.toDocuments.toMaps = v := by
  refine shapedInduction ?scalar ?map ?array ?codeWithScope h shaped
  case scalar =>
    intro v hv
    obtain ⟨-, documents, maps⟩ := unchanged_of_scalar hv
    rw [documents, maps]
  case map =>
    intro fs gs sorted ih order
    have same : fs.mapValues ((toMaps ∘ toDocuments) ∘ Prod.snd) = fs.mapValues Prod.fst :=
      Fields.mapValues_congr ih
    have walked : (gs.mapValues (toMaps ∘ toDocuments)).Perm (fs.mapValues Prod.fst) := by
      have moved := order.map fun g : String × Value => (g.1, (toMaps ∘ toDocuments) g.2)
      rw [← same, ← Fields.mapValues_mapValues _ Prod.snd]
      exact moved
    rw [toDocuments_map, toMaps_document, Document.toMaps, toMapsInFields_eq,
      Fields.mapValues_mapValues, Document.toMap, Fields.sorted_eq_of_perm sorted walked]
  case array =>
    intro items ih
    rw [toDocuments_array, toMaps_array, List.map_map, List.map_map]
    exact congrArg Value.array (List.map_congr_left ih)
  case codeWithScope => exact fun _ _ _ => rfl

end Reorders

end Value

namespace DocumentMap

/-- **Round trip in every order**: if a map is encoded with its fields walked in one order, it is
encoded in every order, to as many bytes, and each of the encodings is decoded to the map. -/
theorem decode_encode_reordered {m first : DocumentMap} {r : RawDocument}
    (shaped : (Value.map m).IsMapShaped) (walked : (Value.map m).Reorders (.map first))
    (encoded : first.encode = .ok r) (small : r.bytes.length ≤ 16 * 1024 * 1024)
    (shallow : (Value.map m).depth ≤ 100) (other : DocumentMap)
    (rewalked : (Value.map m).Reorders (.map other)) :
    ∃ r', other.encode = .ok r' ∧ r'.bytes.length = r.bytes.length ∧
      Config.standard.decodeMap .nested r'.bytes = .ok m := by
  have written := encode_eq_ok_iff.1 encoded
  have size : (Value.map other).wireSize = r.bytes.length := by
    rw [length_of_written written, ← walked.wireSize_eq, rewalked.wireSize_eq]
  have free := rewalked.nulFree_iff.1 (walked.nulFree_iff.2 (nulFree_of_written written))
  obtain ⟨out, hout⟩ := exists_written free (by omega)
  have length : out.length = r.bytes.length := by rw [length_of_written hout, size]
  refine ⟨⟨out⟩, encode_eq_ok_iff.2 hout, length, ?_⟩
  -- the bytes are those of a document, which is read and made a map
  let d : Document := other.mapValues Value.toDocuments
  have document : (Value.map other).toDocuments = .document d := Value.toDocuments_map other
  have plain := rewalked.plain_toDocuments shaped
  have depth := rewalked.depth_toDocuments_le shaped
  have again := rewalked.toMaps_toDocuments shaped
  rw [← Value.writePayload_toDocuments] at hout
  rw [document] at plain depth again hout
  rw [Value.toMaps_document] at again
  injection again with again
  have hdoc := Document.isDocument_of_encode plain (Document.encode_eq_ok_iff.2 hout)
  have fits : out.length ≤ Config.standard.maxDocumentSize := length ▸ small
  have read := Config.decodeDocument_of_isDocument hdoc fits (Nat.le_trans depth shallow)
  rw [Config.decodeMap_of_decodeDocument read, again]

/-- two levels, both in the order of their names and both the other way round -/
theorem decode_encode_reordered_two_levels :
    let m : DocumentMap := [("a", .map [("x", .null), ("y", .boolean true)]),
      ("b", .codeWithScope "f" [("s", .null)])]
    let other : DocumentMap := [("b", .codeWithScope "f" [("s", .null)]),
      ("a", .map [("y", .boolean true), ("x", .null)])]
    ∃ r r', m.encode = .ok r ∧ other.encode = .ok r' ∧ r'.bytes ≠ r.bytes ∧
      r'.bytes.length = r.bytes.length ∧ Config.standard.decodeMap .nested r'.bytes = .ok m := by
  intro m other
  have encoded : m.encode = .ok ⟨[41, 0, 0, 0, 3, 97, 0, 12, 0, 0, 0, 10, 120, 0, 8, 121, 0, 1, 0,
    15, 98, 0, 18, 0, 0, 0, 2, 0, 0, 0, 102, 0, 8, 0, 0, 0, 10, 115, 0, 0, 0]⟩ := rfl
  have encoded' : other.encode = .ok ⟨[41, 0, 0, 0, 15, 98, 0, 18, 0, 0, 0, 2, 0, 0, 0, 102, 0, 8,
    0, 0, 0, 10, 115, 0, 0, 3, 97, 0, 12, 0, 0, 0, 8, 121, 0, 1, 10, 120, 0, 0, 0]⟩ := rfl
  have sorted : Fields.Sorted m ∧ Fields.Sorted [("x", Value.null), ("y", .boolean true)] := by
    unfold Fields.Sorted
    decide
  have shaped : (Value.map m).IsMapShaped := by
    refine .map sorted.1 (List.forall_mem_cons.2
      ⟨?_, List.forall_mem_singleton.2 (.codeWithScope rfl)⟩)
    exact .map sorted.2 (List.forall_mem_cons.2
      ⟨.scalar rfl, List.forall_mem_singleton.2 (.scalar rfl)⟩)
  have inner : (Value.map [("x", .null), ("y", .boolean true)]).Reorders
      (.map [("y", .boolean true), ("x", .null)]) := .of_perm (.swap ..)
  have reversed : (Value.map m).Reorders (.map other) :=
    @Value.Reorders.map [("a", _, _), ("b", _, _)] _
      (List.forall_mem_cons.2 ⟨inner, List.forall_mem_singleton.2 (.refl _)⟩) (.swap ..)
  obtain ⟨r', h, length, read⟩ :=
    decode_encode_reordered shaped (.refl _) encoded (by decide) (by decide) other reversed
  rw [encoded'] at h
  injection h with h
  refine ⟨_, r', encoded, by rw [encoded', h], ?_, length, read⟩
  rw [← h]
  decide

end DocumentMap

end Bson
