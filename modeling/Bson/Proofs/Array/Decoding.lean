import Mathlib.Data.List.Nodup
import Bson.Proofs.Array.Stable
import Bson.Proofs.Shape.Maps
import Bson.Proofs.Wire.Canonical

/-!
# Arrays in bytes

* `Config.Reads`        a payload that is read as a value, in a shape and with some levels left;
* `Config.Lists`        the elements of a container, in the order of the bytes;
* `Config.accepts_array`  an array is read as the values of its elements, stably sorted by their
                        names;
* `Config.ReadsBack`    what the encoding of a value is read as;
* `readElements_written_iff`  fields that were encoded are read field by field;
* `ArrayOrder.ByIndex`  items in the order of their indices, by number or by the decimal texts;
* `Config.arrays_stablySorted`  so an array is a permutation of the elements in the bytes, in which
                        the order of the bytes decides between equal ranks alone, and an array that
                        was encoded keeps its order where numbers are looked at.
-/

namespace Bson

open Grammar

/-! ### reading -/

theorem Reader.Accepts.exact {α : Type} {r : Reader α} {F : Bytes → α → Prop} (h : r.Accepts F) :
    r.Accepts fun bs a => r bs = .ok a [] := by
  refine h.congr fun bs a => ?_
  rw [h bs a []]
  constructor
  · exact fun here => ⟨bs, (List.append_nil bs).symm, here⟩
  · rintro ⟨cs, rfl, here⟩
    rwa [List.append_nil]

theorem Reader.eq_map_of_followedBy {α β : Type} {f : α → β} {r : Reader α} {s : Reader β}
    (h : r.FollowedBy (fun _ => False) f s) : s = f <$> r :=
  funext fun input => (h input).resolve_left fun ⟨_, _, excused, _⟩ => excused

namespace Config

/-- the bytes are the payload of a value, where so many levels may be entered -/
def Reads (config : Config) (shape : Shape) (levels : Nat) (t : ElementType) (bs : Bytes)
    (v : Value) : Prop :=
  readPayload config.arrayOrder shape .nested (contents config levels) t bs = .ok v []

/-- the elements of a container, in the order of its bytes -/
structure Lists (config : Config) (shape : Shape) (levels : Nat) (bs : Bytes)
    (es : List Element) : Prop where
  delimited : Delimited bs
  bytes : bs.drop 4 = es.flatMap Element.bytes ++ [0]
  has : ∀ e ∈ es, e.Has (config.Reads shape levels)

theorem accepts_reads (config : Config) (shape : Shape) (levels : Nat) (t : ElementType) :
    (readPayload config.arrayOrder shape .nested (contents config levels) t).Accepts
      (config.Reads shape levels t) := by
  have inner (bs : Bytes) (fs : Fields Value) (h : Delimited bs) :
      contents config levels .document bs = .ok fs ↔
        IsDocument config.arrayOrder bs fs ∧ Document.depth fs ≤ levels := contents_eq_ok_iff h
  have documents := Reader.accepts_payload inner t
  cases shape with
  | document => exact documents.exact
  | map =>
    have maps : (readPayload config.arrayOrder .map .nested (contents config levels) t) =
        Value.toMaps <$> readPayload config.arrayOrder .document .nested _ t :=
      Reader.eq_map_of_followedBy
        (Reader.followedBy_payload lifted_none recasts_toMaps (contents_toMaps config levels) t)
    have accepts := documents.map Value.toMaps
    rw [← maps] at accepts
    exact accepts.exact

theorem contents_succ_eq_ok_iff {config : Config} {shape : Shape} {levels : Nat} {bs : Bytes}
    {fs : Fields Value} (delimited : Delimited bs) :
    contents config (levels + 1) shape bs = .ok fs ↔
      ∃ es, config.Lists shape levels bs es ∧ fs = es.map Element.field := by
  rw [contents, elementsOf_eq_ok_iff (Reader.accepts_tagged (accepts_reads config shape levels))]
  constructor
  · rintro ⟨es, bytes, rfl, has⟩
    exact ⟨es, ⟨delimited, bytes, has⟩, rfl⟩
  · rintro ⟨es, ⟨-, bytes, has⟩, rfl⟩
    exact ⟨es, bytes, rfl, has⟩

theorem accepts_array (config : Config) (shape : Shape) (nesting : Nesting) (levels : Nat) :
    (readPayload config.arrayOrder shape nesting (contents config (levels + 1)) .array).Accepts
      fun bs v => ∃ es gs, config.Lists shape levels bs es ∧
        config.arrayOrder.StablySorted (es.map Element.field) gs ∧
          v = .array (gs.map Prod.snd) := by
  refine (Reader.accepts_documentBytes.bind fun bs => Reader.accepts_lift
    ((contents config (levels + 1) shape bs).map fun fs =>
      Value.array (config.arrayOrder.sort fs))).congr fun bs v => ⟨?_, ?_⟩
  · rintro ⟨_, cs, _, rfl, ⟨delimited, rfl⟩, rfl, read⟩
    obtain ⟨fs, listed, rfl⟩ := Except.map_eq_ok_iff.1 read
    obtain ⟨es, lists, rfl⟩ := (contents_succ_eq_ok_iff delimited).1 listed
    obtain ⟨gs, sorted, items⟩ := ArrayOrder.sort_eq_iff_stablySorted.1 (Eq.refl _)
    rw [List.append_nil, items]
    exact ⟨es, gs, lists, sorted, rfl⟩
  · rintro ⟨es, gs, lists, sorted, rfl⟩
    refine ⟨bs, bs, [], (List.append_nil bs).symm, ⟨lists.delimited, rfl⟩, rfl, ?_⟩
    rw [(contents_succ_eq_ok_iff lists.delimited).2 ⟨es, lists, rfl⟩,
      ← ArrayOrder.sort_eq_iff_stablySorted.2 ⟨gs, sorted, rfl⟩]
    rfl

/-! ### encoded values -/

/-- what the encoding of a value is read as -/
def ReadsBack (config : Config) (shape : Shape) (levels : Nat) (v w : Value) : Prop :=
  ∃ cs, (writePayload v).written = .ok cs ∧ config.Reads shape levels v.elementType cs w

variable {config : Config} {shape : Shape} {levels : Nat}

theorem left_of_documentBytes {α : Type} {f : Bytes → Except Error α} {cs rest left : Bytes} {a : α}
    (delimited : Delimited cs)
    (read : (Reader.documentBytes >>= fun bs => Reader.lift (f bs)) (cs ++ rest) = .ok a left) :
    left = rest := by
  obtain ⟨bs, behind, taken, lifted⟩ := EStateM.bind_eq_ok_iff.1 read
  rw [(Reader.accepts_documentBytes _ _ _).2 ⟨cs, rfl, delimited, rfl⟩] at taken
  cases taken
  obtain ⟨_, same, rfl, -⟩ := (Reader.accepts_lift _ _ _ _).1 lifted
  exact same.symm

/-- the encoding of a value says itself where it ends, also if it cannot be read -/
theorem left_of_written {v w : Value} {cs rest left : Bytes}
    (raw : ∀ doc, v = .raw doc → Delimited doc.bytes) (written : (writePayload v).written = .ok cs)
    (read : readPayload config.arrayOrder shape .nested (contents config levels) v.elementType
      (cs ++ rest) = .ok w left) : left = rest := by
  cases hc : v.elementType.isContainer with
  | false =>
    have scalar := isScalar_of_written hc written
    rw [(Reader.accepts_scalar hc _ _ _).2 ⟨cs, rfl, scalar⟩] at read
    cases read
    rfl
  | true =>
    cases v with
    | document fs | map fs =>
      rw [writePayload] at written
      exact left_of_documentBytes (delimited_of_enclosed (appends_fields fs) written) read
    | array items =>
      rw [writePayload_array] at written
      exact left_of_documentBytes (delimited_of_enclosed (appends_fields _) written) read
    | raw doc =>
      cases written
      exact left_of_documentBytes (raw doc rfl) read
    | codeWithScope code scope =>
      obtain ⟨text, inner, first, second, -, rfl⟩ := written_codeWithScope_iff.1 written
      have delimited := delimited_of_enclosed (appends_fields scope) second
      obtain ⟨_, same, width, text', inner', code', scope', rfl, length, spelled, delimited', -⟩ :=
        (Reader.accepts_codeWithScope _ _ _).1 read
      simp only [List.append_assoc] at same
      obtain ⟨-, same⟩ := List.append_inj same
        ((Writer.length_lengthBytes _).trans length.1.symm)
      obtain ⟨-, -, same⟩ :=
        Reader.accepts_string.unique (isString_of_written first) spelled same
      obtain ⟨-, -, same⟩ :=
        Reader.accepts_documentBytes.unique ⟨delimited, rfl⟩ ⟨delimited', rfl⟩ same
      exact same.symm
    | _ => cases hc

/-- a field whose encoding is read as another one -/
def FieldReadsBack (config : Config) (shape : Shape) (levels : Nat) (f g : String × Value) : Prop :=
  f.1 = g.1 ∧ config.ReadsBack shape levels f.2 g.2

/-- fields that were encoded are listed in their bytes as what they are read as -/
theorem exists_elements_of_written {fs gs : Fields Value} {out : Bytes}
    (back : List.Forall₂ (config.FieldReadsBack shape levels) fs gs)
    (written : (writeFields fs).written = .ok out) :
    ∃ es : List Element, out = es.flatMap Element.bytes ∧ gs = es.map Element.field ∧
      ∀ e ∈ es, e.Has (config.Reads shape levels) := by
  induction back generalizing out with
  | nil => exact ⟨[], written_nil_iff.1 written, rfl, nofun⟩
  | @cons f g fs gs first _ ih =>
    obtain ⟨same, cs, payload, read⟩ := first
    obtain ⟨_, more, free, payload', others, rfl⟩ := written_cons_iff.1 written
    rw [payload'] at payload
    cases payload
    obtain ⟨es, rfl, rfl, has⟩ := ih others
    have bytes := Element.flatMap_bytes_cons ⟨f.2.elementType, f.1, cs, g.2⟩ es
    refine ⟨_, bytes.symm, ?_, List.forall_mem_cons.2 ⟨⟨free, read⟩, has⟩⟩
    rw [List.map_cons, Element.field, same]

/-- whatever is listed in the bytes of encoded fields, the fields are read as it -/
theorem readsBack_of_elements {fs : Fields Value} {es : List Element} {out : Bytes}
    (raws : ∀ f ∈ fs, ∀ doc, f.2 = .raw doc → Delimited doc.bytes)
    (written : (writeFields fs).written = .ok out)
    (bytes : out ++ [0] = es.flatMap Element.bytes ++ [0])
    (has : ∀ e ∈ es, e.Has (config.Reads shape levels)) :
    List.Forall₂ (config.FieldReadsBack shape levels) fs (es.map Element.field) := by
  induction fs generalizing out es with
  | nil =>
    obtain rfl := written_nil_iff.1 written
    cases es with
    | nil => exact .nil
    | cons e es =>
      rw [Element.flatMap_bytes_cons] at bytes
      exact absurd (List.cons.inj bytes).1.symm e.type.tag_ne_zero
  | cons f fs ih =>
    obtain ⟨raw, raws⟩ := List.forall_mem_cons.1 raws
    obtain ⟨cs, more, free, payload, others, rfl⟩ := written_cons_iff.1 written
    cases es with
    | nil => exact absurd (List.cons.inj bytes).1 f.2.elementType.tag_ne_zero
    | cons e es =>
      obtain ⟨⟨free', read⟩, hasMore⟩ := List.forall_mem_cons.1 has
      obtain ⟨type, name, payload', value⟩ := e
      rw [Element.flatMap_bytes_cons, List.cons_append, List.cons_append] at bytes
      obtain ⟨tags, same⟩ := List.cons.inj bytes
      obtain rfl : f.2.elementType = type := tag_inj tags
      have behind : (utf8 f.1 ++ [0]) ++ (cs ++ (more ++ [0])) =
          (utf8 name ++ [0]) ++ (payload' ++ (es.flatMap Element.bytes ++ [0])) := by
        simpa only [List.append_assoc] using same
      obtain ⟨-, rfl, payloads⟩ := Reader.accepts_cstring.unique (.mk free) (.mk free') behind
      have whole := (accepts_reads config shape levels _ _ _ _).2 ⟨payload', payloads, read⟩
      have others' := left_of_written raw payload whole
      rw [others'] at payloads
      obtain rfl := List.append_cancel_right payloads
      exact .cons ⟨rfl, cs, payload, read⟩ (ih raws others others'.symm hasMore)

end Config

theorem forall₂_numbered_iff {R : Value → Value → Prop} {i : Nat} {items : List Value}
    {gs : Fields Value} :
    List.Forall₂ (fun f g => f.1 = g.1 ∧ R f.2 g.2) (numbered i items) gs ↔
      ∃ ws, List.Forall₂ R items ws ∧ gs = numbered i ws := by
  induction items generalizing i gs with
  | nil =>
    rw [numbered, List.forall₂_nil_left_iff]
    constructor
    · exact fun same => ⟨[], .nil, same⟩
    · rintro ⟨_, ⟨⟩, same⟩
      exact same
  | cons v items ih =>
    rw [numbered, List.forall₂_cons_left_iff]
    constructor
    · rintro ⟨g, gs, ⟨name, value⟩, others, rfl⟩
      obtain ⟨ws, back, rfl⟩ := ih.1 others
      refine ⟨g.2 :: ws, .cons value back, ?_⟩
      rw [numbered, show Decimal.ofNat i = g.1 from name]
    · rintro ⟨_, back, rfl⟩
      obtain ⟨w, ws, first, others, rfl⟩ := List.forall₂_cons_left_iff.1 back
      exact ⟨(Decimal.ofNat i, w), _, ⟨rfl, first⟩, ih.2 ⟨ws, others, rfl⟩, rfl⟩

/-! ### the order of indices -/

namespace ArrayOrder

theorem pairwise_numbered_iff {R : String → String → Prop} {items : List Value} :
    ((numbered 0 items).Pairwise fun f g => R f.1 g.1) ↔
      (List.range items.length).Pairwise fun m n => R (Decimal.ofNat m) (Decimal.ofNat n) := by
  rw [← List.pairwise_map (f := Prod.fst), names_numbered, List.pairwise_map, List.range_eq_range']

/-- the decimal texts of indices are in the order of their bytes as long as they have one digit -/
theorem pairwise_numbered_byName_iff {items : List Value} :
    ((numbered 0 items).Pairwise fun f g => utf8 f.1 ≤ utf8 g.1) ↔ items.length ≤ 10 := by
  rw [pairwise_numbered_iff (R := fun a b => utf8 a ≤ utf8 b)]
  constructor
  · intro ordered
    by_contra many
    have two := List.pairwise_iff_getElem.1 ordered 2 10 (by rw [List.length_range]; omega)
      (by rw [List.length_range]; omega) (by decide)
    rw [List.getElem_range, List.getElem_range] at two
    exact absurd two (by decide)
  · intro few
    have digits : ∀ n < 10, ∀ m < n, utf8 (Decimal.ofNat m) ≤ utf8 (Decimal.ofNat n) := by decide
    refine List.pairwise_lt_range.imp_of_mem fun {m n} _ hn less => ?_
    exact digits n (Nat.lt_of_lt_of_le (List.mem_range.1 hn) few) m less

/-- items as fields in the order of their indices: by number they stand as they are, and by the bytes
of the decimal texts only if there are no more than ten -/
def ByIndex : ArrayOrder → List Value → Fields Value → Prop
  | .numeric, items, gs => gs = numbered 0 items
  | .lexicographic, items, gs => gs.Perm (numbered 0 items) ∧
      (gs.Pairwise fun f g => utf8 f.1 ≤ utf8 g.1) ∧ (gs = numbered 0 items ↔ items.length ≤ 10) ∧
      (items.Nodup → (gs.map Prod.snd = items ↔ items.length ≤ 10))

/-- items that differ stand at their places only with their own indices -/
theorem eq_numbered_of_values {items : List Value} {gs : Fields Value} (distinct : items.Nodup)
    (perm : gs.Perm (numbered 0 items)) (same : gs.map Prod.snd = items) :
    gs = numbered 0 items := by
  have values : ((numbered 0 items).map Prod.snd).Nodup := by rwa [map_snd_numbered]
  refine List.ext_getElem perm.length_eq fun i hi hi' => ?_
  refine List.inj_on_of_nodup_map values (perm.mem_iff.1 (List.getElem_mem hi))
    (List.getElem_mem hi') ?_
  have value : (gs.map Prod.snd)[i]? = ((numbered 0 items).map Prod.snd)[i]? := by
    rw [same, map_snd_numbered]
  rw [List.getElem?_map, List.getElem?_map, List.getElem?_eq_getElem hi,
    List.getElem?_eq_getElem hi'] at value
  exact Option.some.inj value

theorem StablySorted.byIndex {order : ArrayOrder} {items : List Value} {gs : Fields Value}
    (h : order.StablySorted (numbered 0 items) gs) (few : items.length ≤ 2 ^ 64) :
    order.ByIndex items gs := by
  have arranged := stablySorted_iff.1 h
  cases order with
  | numeric => exact arranged.unique (.of_ordered (numbered_ordered (by omega)))
  | lexicographic =>
    have same : gs = numbered 0 items ↔ items.length ≤ 10 := by
      rw [← pairwise_numbered_byName_iff]
      constructor
      · rintro rfl
        exact h.ordered
      · exact fun ordered => arranged.unique (.of_ordered (ordered_iff.1 ordered))
    refine ⟨h.perm, h.ordered, same, fun distinct => ?_⟩
    rw [← same]
    constructor
    · exact eq_numbered_of_values distinct h.perm
    · rintro rfl
      exact map_snd_numbered 0 items

end ArrayOrder

/-! ### arrays -/

namespace Config

variable {config : Config} {shape : Shape} {nesting : Nesting} {levels : Nat}

theorem length_le_flatMap_bytes (es : List Element) :
    es.length ≤ (es.flatMap Element.bytes).length := by
  induction es with
  | nil => exact Nat.le_refl 0
  | cons e es ih =>
    rw [Element.flatMap_bytes_cons]
    simp only [List.length_cons, List.length_append]
    omega

theorem Lists.length_lt {bs : Bytes} {es : List Element} (h : config.Lists shape levels bs es) :
    es.length < 2 ^ 31 := by
  have count := length_le_flatMap_bytes es
  have total := congrArg List.length h.bytes
  rw [List.length_drop, List.length_append] at total
  have := h.delimited.2.lt
  omega

theorem exists_read_array {items ws : List Value} {bs : Bytes}
    (written : (writePayload (.array items)).written = .ok bs)
    (back : List.Forall₂ (config.ReadsBack shape levels) items ws) :
    ∃ gs, config.arrayOrder.ByIndex ws gs ∧
      readPayload config.arrayOrder shape nesting (contents config (levels + 1)) .array bs =
        .ok (.array (gs.map Prod.snd)) [] := by
  have delimited : Delimited bs := by
    rw [writePayload_array] at written
    exact delimited_of_enclosed (appends_fields _) written
  rw [writePayload_array, Writer.written_enclosed_iff (appends_fields _)] at written
  obtain ⟨out, fields, -, rfl⟩ := written
  obtain ⟨es, rfl, listed, has⟩ :=
    exists_elements_of_written (forall₂_numbered_iff.2 ⟨ws, back, rfl⟩) fields
  have lists : config.Lists shape levels _ es :=
    ⟨delimited, List.drop_left' (Writer.length_lengthBytes _), has⟩
  obtain ⟨gs, sorted⟩ := config.arrayOrder.exists_stablySorted (numbered 0 ws)
  have few : ws.length ≤ 2 ^ 64 := by
    have count := congrArg List.length listed
    rw [length_numbered, List.length_map] at count
    have := lists.length_lt
    omega
  refine ⟨gs, sorted.byIndex few, ?_⟩
  refine (accepts_array config shape nesting levels _ _ _).2 ⟨_, (List.append_nil _).symm, ?_⟩
  exact ⟨es, gs, lists, listed ▸ sorted, rfl⟩

theorem readsBack_of_read_array {items : List Value} {bs : Bytes} {v : Value}
    (written : (writePayload (.array items)).written = .ok bs)
    (raws : ∀ doc, Value.raw doc ∈ items → Delimited doc.bytes)
    (read : readPayload config.arrayOrder shape nesting (contents config (levels + 1)) .array bs =
      .ok v []) : ∃ ws, List.Forall₂ (config.ReadsBack shape levels) items ws := by
  obtain ⟨_, whole, es, gs, lists, -, -⟩ := (accepts_array config shape nesting levels _ _ _).1 read
  rw [List.append_nil] at whole
  subst whole
  rw [writePayload_array, Writer.written_enclosed_iff (appends_fields _)] at written
  obtain ⟨out, fields, -, rfl⟩ := written
  have bytes := lists.bytes
  rw [List.drop_left' (Writer.length_lengthBytes _)] at bytes
  have raws (f) (hf : f ∈ numbered 0 items) (doc) (same : f.2 = .raw doc) : Delimited doc.bytes :=
    raws doc (same ▸ (mem_numbered hf).1)
  obtain ⟨ws, back, -⟩ := forall₂_numbered_iff.1 (readsBack_of_elements raws fields bytes lists.has)
  exact ⟨ws, back⟩

theorem readsBack_scalar_iff {v w : Value} {cs : Bytes} (scalar : v.elementType.isContainer = false)
    (written : (writePayload v).written = .ok cs) :
    config.ReadsBack shape levels v w ↔ w = v := by
  have itself : config.Reads shape levels v.elementType cs v :=
    (Reader.accepts_scalar scalar _ _ _).2
      ⟨cs, (List.append_nil cs).symm, isScalar_of_written scalar written⟩
  constructor
  · rintro ⟨_, again, read⟩
    rw [written] at again
    cases again
    rw [Reads, itself] at read
    cases read
    rfl
  · rintro rfl
    exact ⟨cs, written, itself⟩

/-- **Array order is a stable sort that loses nothing.** In either shape and nesting mode, and with
any number of levels left for what is inside:
what is read as an array are bytes that list elements, and the items are their values, stably sorted
by their names, whatever these are;
two listings of the same fields, of which no two have one rank, are read as the same array;
an encoded array is read if its items are, as these in the order of their indices, and only then;
and items without elements are read as they were. -/
theorem arrays_stablySorted (config : Config) (shape : Shape) (nesting : Nesting) (levels : Nat) :
    let read := readPayload config.arrayOrder shape nesting (contents config (levels + 1)) .array
    (∀ input v rest, read input = .ok v rest ↔ ∃ bs es gs, input = bs ++ rest ∧
      config.Lists shape levels bs es ∧
        config.arrayOrder.StablySorted (es.map Element.field) gs ∧ v = .array (gs.map Prod.snd)) ∧
    (∀ bs bs' es es', config.Lists shape levels bs es → config.Lists shape levels bs' es' →
      (es.map Element.field).Perm (es'.map Element.field) →
      ((es.map Element.field).Pairwise fun f g => ¬ config.arrayOrder.SameRank f.1 g.1) →
      ∃ v, read bs = .ok v [] ∧ read bs' = .ok v []) ∧
    (∀ items bs, (writePayload (.array items)).written = .ok bs →
      (∀ ws, List.Forall₂ (config.ReadsBack shape levels) items ws →
        ∃ gs, config.arrayOrder.ByIndex ws gs ∧ read bs = .ok (.array (gs.map Prod.snd)) []) ∧
      ((∀ doc, Value.raw doc ∈ items → Delimited doc.bytes) → ∀ v, read bs = .ok v [] →
        ∃ ws, List.Forall₂ (config.ReadsBack shape levels) items ws)) ∧
    ∀ v w cs, v.elementType.isContainer = false → (writePayload v).written = .ok cs →
      (config.ReadsBack shape levels v w ↔ w = v) := by
  intro read
  have accepts := accepts_array config shape nesting levels
  refine ⟨fun input v rest => (accepts input v rest).trans (by simp only [exists_and_left]),
    fun bs bs' es es' lists lists' perm distinct => ?_,
    fun items bs written => ⟨fun ws => exists_read_array written, fun raws v =>
      readsBack_of_read_array written raws⟩, fun v w cs => readsBack_scalar_iff⟩
  obtain ⟨gs, sorted⟩ := config.arrayOrder.exists_stablySorted (es.map Element.field)
  obtain ⟨gs', sorted'⟩ := config.arrayOrder.exists_stablySorted (es'.map Element.field)
  obtain rfl := sorted.eq_of_perm sorted' perm distinct
  exact ⟨.array (gs.map Prod.snd),
    (accepts _ _ _).2 ⟨bs, (List.append_nil bs).symm, es, gs, lists, sorted, rfl⟩,
    (accepts _ _ _).2 ⟨bs', (List.append_nil bs').symm, es', gs, lists', sorted', rfl⟩⟩

/-- names that are no indices in two orders, and eleven items by the bytes of their indices -/
theorem arrays_stablySorted_in_two_orders :
    (let read := readPayload .numeric .document .nested (contents .standard 1) .array
      ∃ v, read [14, 0, 0, 0, 255, 120, 0, 10, 43, 53, 0, 127, 0, 0] = .ok v [] ∧
        read [14, 0, 0, 0, 127, 0, 10, 43, 53, 0, 255, 120, 0, 0] = .ok v []) ∧
    (let config : Config := { arrayOrder := .lexicographic }
      let read := readPayload .lexicographic .map .nested (contents config 1) .array
      let items := (List.range 11).map fun n => Value.int32 (Int32.ofNat n)
      ∃ bs others, (writePayload (.array items)).written = .ok bs ∧
        read bs = .ok (.array others) [] ∧ others.Perm items ∧ others ≠ items) := by
  constructor
  · obtain ⟨-, either, -⟩ := arrays_stablySorted .standard .document .nested 0
    let x : Element := ⟨.minKey, "x", [], .minKey⟩
    let five : Element := ⟨.null, "+5", [], .null⟩
    let empty : Element := ⟨.maxKey, "", [], .maxKey⟩
    have hx : x.Has (Reads .standard .document 0) := ⟨by decide, rfl⟩
    have hfive : five.Has (Reads .standard .document 0) := ⟨by decide, rfl⟩
    have hempty : empty.Has (Reads .standard .document 0) := ⟨by decide, rfl⟩
    have three {p : Element → Prop} {a b c : Element} (ha : p a) (hb : p b) (hc : p c) :
        ∀ e ∈ [a, b, c], p e :=
      List.forall_mem_cons.2 ⟨ha, List.forall_mem_cons.2 ⟨hb, List.forall_mem_singleton.2 hc⟩⟩
    refine either _ _ [x, five, empty] [empty, five, x] ⟨⟨by decide, rfl, by decide⟩, rfl, ?_⟩
      ⟨⟨by decide, rfl, by decide⟩, rfl, ?_⟩ ?_ ?_
    · exact three hx hfive hempty
    · exact three hempty hfive hx
    · exact (List.reverse_perm [x, five, empty]).symm.map Element.field
    · simp only [ArrayOrder.sameRank_iff]
      decide
  · intro config read items
    obtain ⟨-, -, encoded, scalars⟩ := arrays_stablySorted config .map .nested 0
    obtain ⟨bs, written⟩ : ∃ bs, (writePayload (.array items)).written = .ok bs := ⟨_, rfl⟩
    obtain ⟨gs, ⟨perm, -, -, distinct⟩, given⟩ := (encoded items bs written).1 items <| by
      refine List.forall₂_same.2 fun v hv => ?_
      obtain ⟨n, -, rfl⟩ := List.mem_map.1 hv
      exact (scalars _ _ _ rfl rfl).2 rfl
    refine ⟨bs, gs.map Prod.snd, written, given, ?_, fun same => ?_⟩
    · have values := perm.map Prod.snd
      rwa [map_snd_numbered] at values
    · have numbers : ∀ m < 11, ∀ n < 11, Int32.ofNat m = Int32.ofNat n → m = n := by decide
      have nodup : items.Nodup := List.nodup_range.map_on fun m hm n hn same =>
        numbers m (List.mem_range.1 hm) n (List.mem_range.1 hn) (Value.int32.inj same)
      exact absurd ((distinct nodup).1 same) (by decide)

end Config

end Bson
