import Bson.Proofs.Result
import Bson.Proofs.Wire.Elements
import Bson.Proofs.Wire.Formats

/-!
# What the decoder accepts

The decoder accepts exactly the grammar. Scalar payloads have their formats, type by type
(`Reader.accepts_scalar`); an element list is read up to its terminator
(`readElements_eq_ok_iff`), and a container at each level is read as the grammar has it
(`Reader.accepts_payload`), as long as levels are left (`contents_eq_ok_iff`).
-/

namespace Bson

open Grammar

namespace Reader

theorem accepts_objectId : readObjectId.Accepts fun bs id => bs = id.bytes := by
  have read := (accepts_bytes 12).bind fun bs => accepts_lift (ObjectId.located bs)
  refine read.congr fun bs id => ?_
  constructor
  · intro hx
    obtain ⟨_, cs, ds, rfl, ⟨hl, rfl⟩, rfl, h⟩ := hx
    unfold ObjectId.located ObjectId.ofBytes? at h
    rw [dif_pos hl] at h
    injection h with h
    rw [← h, List.append_nil]
  · rintro rfl
    refine ⟨_, id.bytes, [], (List.append_nil _).symm, ⟨id.length_bytes, rfl⟩, rfl, ?_⟩
    rw [ObjectId.located, ObjectId.ofBytes?_bytes]

theorem accepts_binary : readBinary.Accepts fun bs a => ∃ w subtype,
    bs = w ++ subtype :: a ∧ IsLength w a.length := by
  have all := accepts_int32.bind fun n =>
    (accepts_fail (.invalidLength n.toInt)).ite (c := n < 0)
      (accepts_u8.bind fun _ => accepts_bytes n.toInt.toNat)
  refine all.congr fun bs a => ?_
  constructor
  · intro hx
    obtain ⟨_, w, cs, rfl, ⟨hw, rfl⟩, h⟩ := hx
    by_cases h1 : Bytes.toInt32 w < 0
    · rw [if_pos h1] at h
      exact h.elim
    · rw [if_neg h1] at h
      obtain ⟨subtype, _, ds, rfl, rfl, hl, rfl⟩ := h
      rw [Int32.lt_iff_toInt_lt, Int32.toInt_zero] at h1
      exact ⟨w, subtype, rfl, hw, by omega⟩
  · intro hx
    obtain ⟨w, subtype, rfl, h⟩ := hx
    have h1 : ¬ Bytes.toInt32 w < 0 := by
      rw [Int32.lt_iff_toInt_lt, h.2, Int32.toInt_zero]
      omega
    refine ⟨_, w, _, rfl, ⟨h.1, rfl⟩, ?_⟩
    rw [if_neg h1, h.2]
    exact ⟨subtype, [subtype], a, rfl, rfl, rfl, rfl⟩

variable {order : ArrayOrder} {shape : Shape} {nesting : Nesting} {inner : Contents}
  {t : ElementType}

/-! ### payloads without elements -/

theorem Accepts.scalar {α : Type} {r : Reader α} {F : Bytes → α → Prop} {f : α → Value}
    (h : r.Accepts F) (format : ∀ bs v, IsScalar t bs v ↔ ∃ a, F bs a ∧ v = f a) :
    (f <$> r).Accepts (IsScalar t) :=
  (h.map f).congr fun bs v => (format bs v).symm

theorem accepts_scalar_double :
    (readPayload order shape nesting inner .double).Accepts (IsScalar .double) := by
  refine accepts_double.scalar fun bs v => ⟨?_, ?_⟩
  · intro h
    cases h with
    | double width => exact ⟨_, ⟨width, rfl⟩, rfl⟩
  · intro hx
    obtain ⟨_, ⟨width, rfl⟩, rfl⟩ := hx
    exact .double width

theorem accepts_scalar_int32 :
    (readPayload order shape nesting inner .int32).Accepts (IsScalar .int32) := by
  refine accepts_int32.scalar fun bs v => ⟨?_, ?_⟩
  · intro h
    cases h with
    | int32 width => exact ⟨_, ⟨width, rfl⟩, rfl⟩
  · intro hx
    obtain ⟨_, ⟨width, rfl⟩, rfl⟩ := hx
    exact .int32 width

theorem accepts_scalar_int64 (h : t = .dateTime ∨ t = .timestamp ∨ t = .int64) :
    (readPayload order shape nesting inner t).Accepts (IsScalar t) := by
  obtain rfl | rfl | rfl := h
  all_goals
    refine accepts_int64.scalar fun bs v => ⟨?_, ?_⟩
    · intro h
      cases h
      rename_i width
      exact ⟨_, ⟨width, rfl⟩, rfl⟩
    · intro hx
      obtain ⟨_, ⟨width, rfl⟩, rfl⟩ := hx
      constructor
      exact width

theorem accepts_scalar_string (h : t = .string ∨ t = .javaScript ∨ t = .symbol) :
    (readPayload order shape nesting inner t).Accepts (IsScalar t) := by
  obtain rfl | rfl | rfl := h
  all_goals
    refine accepts_string.scalar fun bs v => ⟨?_, ?_⟩
    · intro h
      cases h
      rename_i text
      exact ⟨_, text, rfl⟩
    · intro hx
      obtain ⟨_, text, rfl⟩ := hx
      constructor
      exact text

theorem accepts_scalar_binary :
    (readPayload order shape nesting inner .binary).Accepts (IsScalar .binary) := by
  refine accepts_binary.scalar fun bs v => ⟨?_, ?_⟩
  · intro h
    cases h with
    | binary length => exact ⟨_, ⟨_, _, rfl, length⟩, rfl⟩
  · intro hx
    obtain ⟨_, ⟨w, subtype, rfl, length⟩, rfl⟩ := hx
    exact .binary length

theorem accepts_scalar_objectId :
    (readPayload order shape nesting inner .objectId).Accepts (IsScalar .objectId) := by
  refine accepts_objectId.scalar fun bs v => ⟨?_, ?_⟩
  · intro h
    cases h with
    | objectId => exact ⟨_, rfl, rfl⟩
  · intro hx
    obtain ⟨_, rfl, rfl⟩ := hx
    exact .objectId

theorem accepts_scalar_boolean :
    (readPayload order shape nesting inner .boolean).Accepts (IsScalar .boolean) := by
  refine accepts_u8.scalar fun bs v => ⟨?_, ?_⟩
  · intro h
    cases h with
    | boolean => exact ⟨_, rfl, rfl⟩
  · intro hx
    obtain ⟨_, rfl, rfl⟩ := hx
    exact .boolean

theorem accepts_scalar_regex :
    (readPayload order shape nesting inner .regex).Accepts (IsScalar .regex) := by
  refine (accepts_cstring.bind fun pattern => accepts_cstring.bind fun options =>
    accepts_pure (Value.regex ⟨pattern, options⟩)).congr fun bs v => ⟨?_, ?_⟩
  · intro hx
    obtain ⟨_, cs, _, rfl, pattern, _, ds, _, rfl, options, rfl, rfl⟩ := hx
    rw [List.append_nil]
    exact .regex pattern options
  · intro h
    cases h with
    | regex pattern options =>
      exact ⟨_, _, _, rfl, pattern, _, _, [], (List.append_nil _).symm, options, rfl, rfl⟩

theorem accepts_scalar_dbPointer :
    (readPayload order shape nesting inner .dbPointer).Accepts (IsScalar .dbPointer) := by
  refine (accepts_string.bind fun collection => accepts_objectId.bind fun id =>
    accepts_pure (Value.dbPointer ⟨collection, id⟩)).congr fun bs v => ⟨?_, ?_⟩
  · intro hx
    obtain ⟨_, cs, _, rfl, collection, id, _, _, rfl, rfl, rfl, rfl⟩ := hx
    rw [List.append_nil]
    exact .dbPointer collection
  · intro h
    cases h with
    | dbPointer collection =>
      exact ⟨_, _, _, rfl, collection, _, _, [], (List.append_nil _).symm, rfl, rfl, rfl⟩

theorem accepts_scalar_empty (h : t = .undefined ∨ t = .null ∨ t = .minKey ∨ t = .maxKey) :
    (readPayload order shape nesting inner t).Accepts (IsScalar t) := by
  obtain rfl | rfl | rfl | rfl := h
  all_goals
    refine (accepts_pure _).congr fun bs v => ⟨?_, ?_⟩
    · intro hx
      obtain ⟨rfl, rfl⟩ := hx
      constructor
    · intro h
      cases h
      exact ⟨rfl, rfl⟩

theorem accepts_scalar (h : t.isContainer = false) :
    (readPayload order shape nesting inner t).Accepts (IsScalar t) := by
  cases t with
  | embeddedDocument | array | codeWithScope => cases h
  | double => exact accepts_scalar_double
  | int32 => exact accepts_scalar_int32
  | dateTime | timestamp | int64 => exact accepts_scalar_int64 (by decide)
  | string | javaScript | symbol => exact accepts_scalar_string (by decide)
  | binary => exact accepts_scalar_binary
  | objectId => exact accepts_scalar_objectId
  | boolean => exact accepts_scalar_boolean
  | regex => exact accepts_scalar_regex
  | dbPointer => exact accepts_scalar_dbPointer
  | undefined | null | minKey | maxKey => exact accepts_scalar_empty (by decide)

/-! ### containers -/

/-- behind a length, a text and a delimited document, the scope is read and the length compared -/
theorem readCodeWithScope_of_parts {w cs ds rest : Bytes} {code : String} (hw : w.length = 4)
    (large : 8 + smallestDocument ≤ (Bytes.toInt32 w).toInt) (hs : IsString cs code)
    (hd : Delimited ds) :
    readCodeWithScope inner (w ++ (cs ++ (ds ++ rest))) =
      match inField "Scope" (inner .document ds) with
      | .error e => .error e rest
      | .ok scope =>
        if 4 + cs.length + ds.length = (Bytes.toInt32 w).toInt then
          .ok (.codeWithScope code scope) rest
        else .error (Fault.invalidLength (Bytes.toInt32 w).toInt).error rest := by
  have h1 : int32 (w ++ (cs ++ (ds ++ rest))) = .ok (Bytes.toInt32 w) (cs ++ (ds ++ rest)) :=
    (accepts_int32 _ _ _).2 ⟨w, rfl, hw, rfl⟩
  have h2 : string (cs ++ (ds ++ rest)) = .ok code (ds ++ rest) :=
    (accepts_string _ _ _).2 ⟨cs, rfl, hs⟩
  have h3 : documentBytes (ds ++ rest) = .ok ds rest :=
    (accepts_documentBytes _ _ _).2 ⟨ds, rfl, hd, rfl⟩
  have span : ((w ++ (cs ++ (ds ++ rest))).length : Int) - rest.length =
      4 + cs.length + ds.length := by
    simp only [List.length_append, hw]
    omega
  rw [readCodeWithScope, EStateM.bind_of_ok h1, if_neg (Int.not_lt.2 large),
    EStateM.bind_of_ok h2, EStateM.bind_of_ok h3]
  cases inField "Scope" (inner .document ds) with
  | error e => rfl
  | ok scope =>
    simp only [← span]
    rfl

/-- the length in front is that of all the code and the scope -/
theorem accepts_codeWithScope : (readCodeWithScope inner).Accepts fun bs v =>
    ∃ w cs ds code scope, bs = w ++ (cs ++ ds) ∧ IsLength w (4 + cs.length + ds.length) ∧
      IsString cs code ∧ Delimited ds ∧ inner .document ds = .ok scope ∧
        v = .codeWithScope code scope := by
  intro input v rest
  constructor
  · intro read
    have whole := read
    unfold readCodeWithScope at read
    obtain ⟨total, left, h1, h⟩ := EStateM.bind_eq_ok_iff.1 read
    obtain ⟨w, rfl, hw, rfl⟩ := (accepts_int32 _ _ _).1 h1
    by_cases small : (Bytes.toInt32 w).toInt < 8 + smallestDocument
    · rw [if_pos small] at h
      cases h
    rw [if_neg small] at h
    obtain ⟨code, left, h2, h⟩ := EStateM.bind_eq_ok_iff.1 h
    obtain ⟨cs, rfl, hs⟩ := (accepts_string _ _ _).1 h2
    obtain ⟨_, left, h3, -⟩ := EStateM.bind_eq_ok_iff.1 h
    obtain ⟨ds, rfl, hd, rfl⟩ := (accepts_documentBytes _ _ _).1 h3
    rw [readCodeWithScope_of_parts hw (Int.not_lt.1 small) hs hd] at whole
    split at whole
    · cases whole
    · rename_i scope hscope
      split at whole
      · rename_i span
        injection whole with h6 h7
        subst h6 h7
        exact ⟨w ++ (cs ++ _), by simp, w, cs, _, code, scope, rfl, ⟨hw, by omega⟩, hs, hd,
          inField_eq_ok_iff.1 hscope, rfl⟩
      · cases whole
  · intro hx
    obtain ⟨_, rfl, w, cs, ds, code, scope, rfl, hw, hs, hd, hscope, rfl⟩ := hx
    have large : 8 + smallestDocument ≤ (Bytes.toInt32 w).toInt := by
      have := hs.length_le
      have := hd.1
      rw [hw.2]
      omega
    rw [List.append_assoc, List.append_assoc, readCodeWithScope_of_parts hw.1 large hs hd, hscope]
    exact if_pos (by rw [hw.2]; omega)

section

variable {levels : Nat}
  (h : ∀ bs fs, Delimited bs →
    (inner .document bs = .ok fs ↔ IsDocument order bs fs ∧ Document.depth fs ≤ levels))

include h

theorem accepts_payload_embeddedDocument :
    (readPayload order .document .nested inner .embeddedDocument).Accepts fun bs v =>
      IsPayload order .embeddedDocument bs v ∧ v.depth ≤ levels := by
  refine (accepts_documentBytes.bind fun bs =>
    accepts_lift ((inner .document bs).map Shape.document.wrap)).congr fun bs v => ⟨?_, ?_⟩
  · intro hx
    obtain ⟨_, cs, _, rfl, ⟨delimited, rfl⟩, rfl, read⟩ := hx
    obtain ⟨fs, hfs, rfl⟩ := Except.map_eq_ok_iff.1 read
    obtain ⟨hdoc, hdepth⟩ := (h _ _ delimited).1 hfs
    rw [List.append_nil]
    exact ⟨.embeddedDocument hdoc, hdepth⟩
  · intro hx
    obtain ⟨hp, hdepth⟩ := hx
    cases hp with
    | scalar hs => cases hs
    | embeddedDocument hdoc =>
      have hfs := (h _ _ hdoc.delimited).2 ⟨hdoc, hdepth⟩
      exact ⟨_, bs, [], (List.append_nil bs).symm, ⟨hdoc.delimited, rfl⟩, rfl, by rw [hfs]; rfl⟩

theorem accepts_payload_array :
    (readPayload order .document .nested inner .array).Accepts fun bs v =>
      IsPayload order .array bs v ∧ v.depth ≤ levels := by
  refine (accepts_documentBytes.bind fun bs => accepts_lift
    ((inner .document bs).map fun fs => Value.array (order.sort fs))).congr fun bs v => ⟨?_, ?_⟩
  · intro hx
    obtain ⟨_, cs, _, rfl, ⟨delimited, rfl⟩, rfl, read⟩ := hx
    obtain ⟨fs, hfs, rfl⟩ := Except.map_eq_ok_iff.1 read
    obtain ⟨hdoc, hdepth⟩ := (h _ _ delimited).1 hfs
    obtain ⟨gs, hgs, hitems⟩ := ArrayOrder.sort_eq_iff.1 (Eq.refl (order.sort fs))
    rw [List.append_nil, hitems]
    exact ⟨.array hdoc hgs, Value.depth_array_le_of_perm hgs.perm |>.2 hdepth⟩
  · intro hx
    obtain ⟨hp, hdepth⟩ := hx
    cases hp with
    | scalar hs => cases hs
    | @array _ fs gs hdoc hgs =>
      have hfs := (h _ _ hdoc.delimited).2
        ⟨hdoc, (Value.depth_array_le_of_perm hgs.perm).1 hdepth⟩
      refine ⟨_, bs, [], (List.append_nil bs).symm, ⟨hdoc.delimited, rfl⟩, rfl, ?_⟩
      rw [hfs, ← ArrayOrder.sort_eq_iff.2 ⟨gs, hgs, rfl⟩]
      rfl

theorem accepts_payload_codeWithScope :
    (readPayload order .document .nested inner .codeWithScope).Accepts fun bs v =>
      IsPayload order .codeWithScope bs v ∧ v.depth ≤ levels := by
  refine accepts_codeWithScope.congr fun bs v => ⟨?_, ?_⟩
  · intro hx
    obtain ⟨w, cs, ds, code, scope, rfl, hw, hs, delimited, hfs, rfl⟩ := hx
    obtain ⟨hdoc, hdepth⟩ := (h _ _ delimited).1 hfs
    exact ⟨.codeWithScope hw hs hdoc, hdepth⟩
  · intro hx
    obtain ⟨hp, hdepth⟩ := hx
    cases hp with
    | scalar hs => cases hs
    | codeWithScope hw hs hdoc =>
      exact ⟨_, _, _, _, _, rfl, hw, hs, hdoc.delimited,
        (h _ _ hdoc.delimited).2 ⟨hdoc, hdepth⟩, rfl⟩

/-- payloads are read as the grammar has them if the containers in them are, up to some depth -/
theorem accepts_payload (t : ElementType) :
    (readPayload order .document .nested inner t).Accepts fun bs v =>
      IsPayload order t bs v ∧ v.depth ≤ levels := by
  cases ht : t.isContainer with
  | false =>
    refine (accepts_scalar ht).congr fun bs v => ?_
    rw [isPayload_iff_of_scalar ht]
    exact ⟨fun hs => ⟨hs, by rw [hs.depth_eq]; exact Nat.zero_le _⟩, And.left⟩
  | true =>
    cases t with
    | embeddedDocument => exact accepts_payload_embeddedDocument h
    | array => exact accepts_payload_array h
    | codeWithScope => exact accepts_payload_codeWithScope h
    | _ => cases ht

end

/-- behind a tag byte stands a payload of its type; there is none behind an unknown one -/
theorem accepts_tagged {format : ElementType → Bytes → Value → Prop}
    (h : ∀ t, (readPayload order shape nesting inner t).Accepts (format t)) (tag : UInt8) :
    (readTagged order shape nesting inner tag).Accepts fun bs v =>
      ∃ t : ElementType, t.tag = tag ∧ format t bs v := by
  unfold readTagged
  cases ht : ElementType.ofTag? tag with
  | some t =>
    refine (h t).congr fun bs v => ⟨fun hp => ?_, ?_⟩
    · exact ⟨t, ElementType.tag_of_ofTag? ht, hp⟩
    · intro hx
      obtain ⟨t', rfl, hp⟩ := hx
      rw [ElementType.ofTag?_tag] at ht
      injection ht with ht
      rwa [← ht]
  | none =>
    refine (accepts_fail _).congr fun bs v => ⟨False.elim, ?_⟩
    intro hx
    obtain ⟨t, rfl, _⟩ := hx
    rw [ElementType.ofTag?_tag] at ht
    cases ht

end Reader

/-! ### elements -/

/-- one step of reading elements: the terminator, or an element and what is read after it -/
theorem readElements_succ_eq_ok_iff {payload : UInt8 → Reader Value} {fuel : Nat} {body : Bytes}
    {fs : Fields Value} :
    readElements payload (fuel + 1) body = .ok fs ↔
      body = [0] ∧ fs = [] ∨
        ∃ tag rest name left v left' more, tag ≠ 0 ∧ body = tag :: rest ∧
          Reader.cstring rest = .ok name left ∧ payload tag left = .ok v left' ∧
            readElements payload fuel left' = .ok more ∧ fs = (name, v) :: more := by
  cases body with
  | nil => simp [readElements]
  | cons tag rest =>
    rw [readElements]
    by_cases ht : tag = 0
    · subst ht
      rw [if_pos rfl]
      constructor
      · intro h
        cases rest with
        | nil =>
          injection h with h
          exact .inl ⟨rfl, h.symm⟩
        | cons b rest => cases h
      · intro hx
        rcases hx with ⟨h, rfl⟩ | ⟨_, _, _, _, _, _, _, h0, h, _⟩
        · rw [(List.cons.inj h).2]
          rfl
        · exact absurd (List.cons.inj h).1.symm h0
    rw [if_neg ht]
    constructor
    · intro h
      cases hn : Reader.cstring rest with
      | error e left => simp [hn] at h
      | ok name left =>
        simp only [hn] at h
        cases hv : payload tag left with
        | error e left' => simp [hv] at h
        | ok v left' =>
          simp only [hv] at h
          obtain ⟨more, hm, h⟩ := Except.bind_eq_ok_iff.1 h
          injection h with h
          exact .inr ⟨tag, rest, name, left, v, left', more, ht, rfl, hn, hv, hm, h.symm⟩
    · intro hx
      rcases hx with ⟨h, -⟩ | ⟨_, _, name, left, v, left', more, _, h, hn, hv, hm, rfl⟩
      · exact absurd (List.cons.inj h).1 ht
      · obtain ⟨rfl, rfl⟩ := List.cons.inj h
        simp only [hn, hv, hm]
        rfl

/-- if payloads are read as a format has them, so are elements up to the terminator -/
theorem readElements_eq_ok_iff {payload : UInt8 → Reader Value}
    {format : ElementType → Bytes → Value → Prop}
    (h : ∀ tag, (payload tag).Accepts fun bs v => ∃ t : ElementType, t.tag = tag ∧ format t bs v)
    {fuel : Nat} {body : Bytes} {fs : Fields Value} (enough : body.length < fuel) :
    readElements payload fuel body = .ok fs ↔
      ∃ es : List Element, body = es.flatMap Element.bytes ++ [0] ∧ fs = es.map Element.field ∧
        ∀ e ∈ es, e.Has format := by
  induction fuel generalizing body fs with
  | zero => exact absurd enough (Nat.not_lt_zero _)
  | succ fuel ih =>
    rw [readElements_succ_eq_ok_iff]
    constructor
    · intro hx
      rcases hx with ⟨rfl, rfl⟩ | ⟨tag, rest, name, left, v, left', more, ht, rfl, hn, hv, hm, rfl⟩
      · exact ⟨[], rfl, rfl, nofun⟩
      · obtain ⟨_, rfl, ⟨free⟩⟩ := (Reader.accepts_cstring _ _ _).1 hn
        obtain ⟨cs, rfl, t, rfl, hp⟩ := (h _ _ _ _).1 hv
        simp only [List.length_cons, List.length_append] at enough
        obtain ⟨es, rfl, rfl, has⟩ := (ih (by omega)).1 hm
        refine ⟨⟨t, name, cs, v⟩ :: es, ?_, rfl, List.forall_mem_cons.2 ⟨⟨free, hp⟩, has⟩⟩
        rw [Element.flatMap_bytes_cons]
        simp only [List.cons_append, List.append_assoc]
    · intro hx
      obtain ⟨es, rfl, rfl, has⟩ := hx
      cases es with
      | nil => exact .inl ⟨rfl, rfl⟩
      | cons e es =>
        right
        obtain ⟨⟨free, hp⟩, more⟩ := List.forall_mem_cons.1 has
        rw [Element.flatMap_bytes_cons] at enough ⊢
        simp only [List.length_cons, List.length_append, List.length_nil] at enough
        refine ⟨e.type.tag,
          (utf8 e.name ++ [0]) ++ (e.payload ++ (es.flatMap Element.bytes ++ [0])),
          e.name, e.payload ++ (es.flatMap Element.bytes ++ [0]), e.value,
          es.flatMap Element.bytes ++ [0], es.map Element.field, e.type.tag_ne_zero, by simp,
          ?_, ?_, ?_, rfl⟩
        · exact (Reader.accepts_cstring _ _ _).2 ⟨_, rfl, .mk free⟩
        · exact (h _ _ _ _).2 ⟨e.payload, rfl, e.type, rfl, hp⟩
        · refine (ih ?_).2 ⟨es, rfl, rfl, more⟩
          rw [List.length_append, List.length_singleton]
          omega

theorem elementsOf_eq_ok_iff {payload : UInt8 → Reader Value}
    {format : ElementType → Bytes → Value → Prop}
    (h : ∀ tag, (payload tag).Accepts fun bs v => ∃ t : ElementType, t.tag = tag ∧ format t bs v)
    {body : Bytes} {fs : Fields Value} :
    elementsOf payload body = .ok fs ↔
      ∃ es : List Element, body = es.flatMap Element.bytes ++ [0] ∧ fs = es.map Element.field ∧
        ∀ e ∈ es, e.Has format :=
  readElements_eq_ok_iff h (Nat.lt_succ_self _)

/-! ### levels -/

theorem depth_elements_le_iff {es : List Element} {levels : Nat} :
    Document.depth (es.map Element.field) ≤ levels + 1 ↔ ∀ e ∈ es, e.value.depth ≤ levels := by
  show Value.depthOfFields _ + 1 ≤ _ ↔ _
  rw [Nat.add_le_add_iff_right, Value.depthOfFields_le_iff, List.forall_mem_map]
  rfl

theorem contents_eq_ok_iff {config : Config} {levels : Nat} {bs : Bytes} {fs : Fields Value}
    (hbs : Delimited bs) :
    contents config levels .document bs = .ok fs ↔
      IsDocument config.arrayOrder bs fs ∧ Document.depth fs ≤ levels := by
  induction levels generalizing bs fs with
  | zero =>
    constructor
    · intro h
      cases h
    · intro hx
      obtain ⟨-, h⟩ := hx
      exact absurd h (Nat.not_succ_le_zero _)
  | succ levels ih =>
    have tagged := Reader.accepts_tagged (Reader.accepts_payload fun _ _ => ih)
    rw [contents, elementsOf_eq_ok_iff tagged, isDocument_iff_elements]
    constructor
    · intro hx
      obtain ⟨es, hes, rfl, has⟩ := hx
      have shallow := depth_elements_le_iff.2 fun e he => (has e he).2.2
      exact ⟨⟨hbs, es, ⟨hes, fun e he => ⟨(has e he).1, (has e he).2.1⟩⟩, rfl⟩, shallow⟩
    · intro hx
      obtain ⟨⟨-, es, ⟨hes, has⟩, rfl⟩, shallow⟩ := hx
      have depth := depth_elements_le_iff.1 shallow
      exact ⟨es, hes, rfl, fun e he => ⟨(has e he).1, (has e he).2, depth e he⟩⟩

end Bson
