import Bson.Proofs.Wire.RoundTrip

/-!
# Embedded documents left as bytes

* `Config.below`        the configuration one level down;
* `Element.unread`      an element with the bytes of an embedded document as its value;
* `Config.noNest_of_nested`  what is decoded in full is decoded with embedded documents left as the
                        bytes that stand there, and these bytes are decoded one level down;
* `Config.nested_iff_noNest`  and only what can be decoded in these two steps is decoded in full.
-/

namespace Bson

open Grammar

def Config.below (config : Config) : Config :=
  { config with maxNestingDepth := config.maxNestingDepth - 1 }

namespace Grammar

namespace Element

/-- the element as it is read without looking into embedded documents -/
def unread (e : Element) : Element :=
  if e.type = .embeddedDocument then { e with value := .raw ⟨e.payload⟩ } else e

/-- an embedded document is what its bytes are decoded to, and no other element is one -/
def Opens (config : Config) (e : Element) : Prop :=
  if e.type = .embeddedDocument then
    ∃ fs, e.value = .document fs ∧ config.decodeDocument .nested e.payload = .ok fs
  else ∀ fs, e.value ≠ .document fs

@[simp] theorem unread_bytes (e : Element) : e.unread.bytes = e.bytes := by
  unfold unread
  split <;> rfl

@[simp] theorem unread_name (e : Element) : e.unread.name = e.name := by
  unfold unread
  split <;> rfl

theorem flatMap_bytes_unread (es : List Element) :
    (es.map unread).flatMap bytes = es.flatMap bytes := by
  rw [List.flatMap_map]
  exact congrArg (es.flatMap ·) (funext unread_bytes)

theorem length_payload_le {p : Bytes} {e : Element} {es : List Element}
    (h : p.drop 4 = es.flatMap bytes ++ [0]) (he : e ∈ es) : e.payload.length ≤ p.length := by
  have inside : e.payload.length ≤ (es.flatMap bytes).length := by
    clear h
    induction es with
    | nil => cases he
    | cons g es ih =>
      rw [flatMap_bytes_cons]
      simp only [List.length_cons, List.length_append]
      rcases List.mem_cons.1 he with rfl | he
      · omega
      · have := ih he
        omega
  have total := congrArg List.length h
  rw [List.length_drop, List.length_append] at total
  omega

end Element

/-- a payload that enters no more than some levels -/
def IsRead (order : ArrayOrder) (levels : Nat) (t : ElementType) (bs : Bytes) (v : Value) : Prop :=
  IsPayload order t bs v ∧ v.depth ≤ levels

/-- the same without looking into an embedded document, of which only the frame is seen -/
def IsUnread (order : ArrayOrder) (levels : Nat) (t : ElementType) (bs : Bytes) (v : Value) :
    Prop :=
  if t = .embeddedDocument then RawDocument.Framed ⟨bs⟩ ∧ v = .raw ⟨bs⟩
  else IsRead order levels t bs v

theorem framed_iff {bs : Bytes} :
    RawDocument.Framed ⟨bs⟩ ↔ Delimited bs ∧ bs.getLast? = some 0 := by
  constructor
  · intro hx
    obtain ⟨small, declared, last⟩ := hx
    have front : (bs.take 4).length = 4 := List.length_take_of_le (Nat.le_of_succ_le small)
    exact ⟨⟨small, front, declared⟩, last⟩
  · intro hx
    obtain ⟨⟨small, -, declared⟩, last⟩ := hx
    exact ⟨small, declared, last⟩

theorem delimited_of_framed {bs : Bytes} (h : RawDocument.Framed ⟨bs⟩) : Delimited bs :=
  (framed_iff.1 h).1

theorem IsDocument.framed {order : ArrayOrder} {bs : Bytes} {fs : Fields Value}
    (h : IsDocument order bs fs) : RawDocument.Framed ⟨bs⟩ := by
  obtain ⟨delimited, body, hbody, -⟩ := isDocument_iff.1 h
  have last : (bs.take 4 ++ (body ++ [0])).getLast? = some 0 := by
    rw [← List.append_assoc, List.getLast?_concat]
  rw [← hbody, List.take_append_drop] at last
  exact framed_iff.2 ⟨delimited, last⟩

theorem exists_elements {format : ElementType → Bytes → Value → Prop} {es : List Element}
    (h : ∀ e ∈ es, 0 ∉ utf8 e.name ∧ ∃ v, format e.type e.payload v) :
    ∃ es' : List Element, es'.flatMap Element.bytes = es.flatMap Element.bytes ∧
      ∀ e ∈ es', e.Has format := by
  induction es with
  | nil => exact ⟨[], rfl, nofun⟩
  | cons e es ih =>
    obtain ⟨⟨free, v, payload⟩, more⟩ := List.forall_mem_cons.1 h
    obtain ⟨es', same, has⟩ := ih more
    refine ⟨{ e with value := v } :: es', ?_, List.forall_mem_cons.2 ⟨⟨free, payload⟩, has⟩⟩
    rw [List.flatMap_cons, List.flatMap_cons, same]
    rfl

end Grammar

/-! ### readers -/

theorem Reader.accepts_payload_noNest {order : ArrayOrder} {inner : Contents} {levels : Nat}
    (h : ∀ bs fs, Delimited bs →
      (inner .document bs = .ok fs ↔ IsDocument order bs fs ∧ Document.depth fs ≤ levels))
    (t : ElementType) :
    (readPayload order .document .noNest inner t).Accepts (IsUnread order levels t) := by
  by_cases ht : t = .embeddedDocument
  · subst ht
    refine (accepts_documentBytes.bind fun bs =>
      accepts_lift ((RawDocument.ofBytes bs).map Value.raw)).congr fun bs v => ⟨?_, ?_⟩
    · intro hx
      obtain ⟨_, cs, _, rfl, ⟨-, rfl⟩, rfl, hv⟩ := hx
      obtain ⟨doc, hdoc, rfl⟩ := Except.map_eq_ok_iff.1 hv
      obtain ⟨rfl, framed⟩ := RawDocument.ofBytes_eq_ok_iff.1 hdoc
      rw [List.append_nil]
      exact ⟨framed, rfl⟩
    · intro hx
      obtain ⟨framed, rfl⟩ := hx
      have hdoc : RawDocument.ofBytes bs = .ok ⟨bs⟩ :=
        RawDocument.ofBytes_eq_ok_iff.2 ⟨rfl, framed⟩
      refine ⟨bs, bs, [], (List.append_nil bs).symm, ⟨delimited_of_framed framed, rfl⟩, rfl, ?_⟩
      rw [hdoc]
      rfl
  · -- only embedded documents are read in two ways
    have same : readPayload order .document .noNest inner t =
        readPayload order .document .nested inner t := by
      cases t <;> first | rfl | exact absurd rfl ht
    rw [same]
    refine (accepts_payload h t).congr fun bs v => ?_
    rw [IsUnread, if_neg ht, IsRead]

namespace Config

variable {config : Config} {bs : Bytes}

/-- if payloads are read as a format has them, so is the document at the front -/
theorem decodeDocument_eq_ok_iff {nesting : Nesting} {format : ElementType → Bytes → Value → Prop}
    (h : ∀ t, (readPayload config.arrayOrder .document nesting
      (contents config (config.maxNestingDepth - 1)) t).Accepts (format t)) {d : Document} :
    config.decodeDocument nesting bs = .ok d ↔
      ∃ p, front config.maxDocumentSize bs = .ok p ∧ ∃ es : List Element,
        p.drop 4 = es.flatMap Element.bytes ++ [0] ∧ d = es.map Element.field ∧
          ∀ e ∈ es, e.Has format := by
  rw [decodeDocument, fields_eq, Except.bind_eq_ok_iff]
  exact exists_congr fun p => and_congr_right fun _ =>
    elementsOf_eq_ok_iff (Reader.accepts_tagged h)

theorem nested_eq_ok_iff {d : Document} :
    config.decodeDocument .nested bs = .ok d ↔
      ∃ p, front config.maxDocumentSize bs = .ok p ∧ ∃ es : List Element,
        p.drop 4 = es.flatMap Element.bytes ++ [0] ∧ d = es.map Element.field ∧
          ∀ e ∈ es, e.Has (IsRead config.arrayOrder (config.maxNestingDepth - 1)) :=
  decodeDocument_eq_ok_iff (Reader.accepts_payload fun _ _ => contents_eq_ok_iff)

theorem noNest_eq_ok_iff {s : Document} :
    config.decodeDocument .noNest bs = .ok s ↔
      ∃ p, front config.maxDocumentSize bs = .ok p ∧ ∃ es : List Element,
        p.drop 4 = es.flatMap Element.bytes ++ [0] ∧ s = es.map Element.field ∧
          ∀ e ∈ es, e.Has (IsUnread config.arrayOrder (config.maxNestingDepth - 1)) :=
  decodeDocument_eq_ok_iff (Reader.accepts_payload_noNest fun _ _ => contents_eq_ok_iff)

/-- an embedded document is read where its bytes are framed and decoded one level down -/
theorem isRead_iff_below (deep : 2 ≤ config.maxNestingDepth) {cs : Bytes} {v : Value}
    (small : cs.length ≤ config.maxDocumentSize) :
    IsRead config.arrayOrder (config.maxNestingDepth - 1) .embeddedDocument cs v ↔
      RawDocument.Framed ⟨cs⟩ ∧
        ∃ fs, v = .document fs ∧ config.below.decodeDocument .nested cs = .ok fs := by
  have levels : max 1 config.below.maxNestingDepth = config.maxNestingDepth - 1 :=
    Nat.max_eq_right (Nat.le_sub_one_of_lt deep)
  constructor
  · intro hx
    obtain ⟨payload, shallow⟩ := hx
    cases payload with
    | scalar h => cases h
    | embeddedDocument hdoc =>
      refine ⟨hdoc.framed, _, rfl, ?_⟩
      have order : IsDocument config.below.arrayOrder cs _ := hdoc
      exact decodeDocument_of_isDocument order small (levels ▸ shallow)
  · intro hx
    obtain ⟨framed, fs, rfl, decoded⟩ := hx
    have delimited := delimited_of_framed framed
    have all : front config.below.maxDocumentSize cs = .ok cs :=
      front_eq_ok_iff.2 ⟨List.prefix_refl cs, delimited, small⟩
    rw [decodeDocument, fields_nested, all, levels] at decoded
    obtain ⟨hdoc, shallow⟩ := (contents_eq_ok_iff delimited).1 decoded
    exact ⟨.embeddedDocument hdoc, shallow⟩

theorem decodeDocument_of_below {d : Document}
    (h : config.below.decodeDocument .nested bs = .ok d) :
    config.decodeDocument .nested bs = .ok d := by
  have levels : max 1 config.below.maxNestingDepth ≤ max 1 config.maxNestingDepth := by
    show max 1 (config.maxNestingDepth - 1) ≤ _
    omega
  rw [decodeDocument, fields_nested] at h ⊢
  obtain ⟨p, hp, hd⟩ := Except.bind_eq_ok_iff.1 h
  have delimited := (front_eq_ok_iff.1 hp).2.1
  obtain ⟨hdoc, shallow⟩ := (contents_eq_ok_iff delimited).1 hd
  exact Except.bind_eq_ok_iff.2 ⟨p, hp, (contents_eq_ok_iff delimited).2
    ⟨hdoc, Nat.le_trans shallow levels⟩⟩

/-- what is decoded in full is decoded without looking into embedded documents, element by
element -/
theorem noNest_of_nested (deep : 2 ≤ config.maxNestingDepth) {d : Document}
    (decoded : config.decodeDocument .nested bs = .ok d) :
    ∃ p es, p <+: bs ∧ Delimited p ∧ HasElements config.arrayOrder p es ∧
      d = es.map Element.field ∧
        config.decodeDocument .noNest bs = .ok (es.map fun e => e.unread.field) ∧
          ∀ e ∈ es, e.Opens config.below := by
  obtain ⟨p, hp, es, hes, rfl, has⟩ := nested_eq_ok_iff.1 decoded
  obtain ⟨prefixed, delimited, large⟩ := front_eq_ok_iff.1 hp
  have split (e) (he : e ∈ es) :
      e.unread.Has (IsUnread config.arrayOrder (config.maxNestingDepth - 1)) ∧
        e.Opens config.below := by
    obtain ⟨free, payload⟩ := has e he
    have small := Nat.le_trans (Element.length_payload_le hes he) large
    unfold Element.unread Element.Opens
    by_cases embedded : e.type = .embeddedDocument
    · rw [embedded] at payload
      obtain ⟨framed, below⟩ := (isRead_iff_below deep small).1 payload
      rw [if_pos embedded, if_pos embedded]
      refine ⟨⟨free, ?_⟩, below⟩
      rw [IsUnread, if_pos embedded]
      exact ⟨framed, rfl⟩
    · rw [if_neg embedded, if_neg embedded]
      refine ⟨⟨free, ?_⟩, fun fs hfs => ?_⟩
      · rwa [IsUnread, if_neg embedded]
      · have type := payload.1.elementType_eq
        rw [hfs] at type
        exact embedded type.symm
  refine ⟨p, es, prefixed, delimited, ⟨hes, fun e he => ⟨(has e he).1, (has e he).2.1⟩⟩, rfl, ?_,
    fun e he => (split e he).2⟩
  refine noNest_eq_ok_iff.2 ⟨p, hp, es.map Element.unread, ?_, by rw [List.map_map]; rfl, ?_⟩
  · rw [Element.flatMap_bytes_unread, hes]
  · exact List.forall_mem_map.2 fun e he => (split e he).1

/-- what is decoded without looking into embedded documents is decoded in full if they are decoded
one level down -/
theorem nested_of_noNest (deep : 2 ≤ config.maxNestingDepth) {s : Document}
    (decoded : config.decodeDocument .noNest bs = .ok s)
    (opens : ∀ name r, (name, Value.raw r) ∈ s →
      ∃ fs, config.below.decodeDocument .nested r.bytes = .ok fs) :
    ∃ d, config.decodeDocument .nested bs = .ok d := by
  obtain ⟨p, hp, es, hes, rfl, has⟩ := noNest_eq_ok_iff.1 decoded
  obtain ⟨-, -, large⟩ := front_eq_ok_iff.1 hp
  have read (e) (he : e ∈ es) :
      ∃ v, IsRead config.arrayOrder (config.maxNestingDepth - 1) e.type e.payload v := by
    obtain ⟨-, payload⟩ := has e he
    unfold IsUnread at payload
    by_cases embedded : e.type = .embeddedDocument
    · rw [if_pos embedded] at payload
      obtain ⟨framed, hv⟩ := payload
      have field : (e.name, Value.raw ⟨e.payload⟩) ∈ es.map Element.field := by
        rw [← hv]
        exact List.mem_map_of_mem (f := Element.field) he
      obtain ⟨fs, hfs⟩ := opens e.name ⟨e.payload⟩ field
      have small := Nat.le_trans (Element.length_payload_le hes he) large
      rw [embedded]
      exact ⟨_, (isRead_iff_below deep small).2 ⟨framed, fs, rfl, hfs⟩⟩
    · rw [if_neg embedded] at payload
      exact ⟨e.value, payload⟩
  obtain ⟨es', same, has'⟩ := exists_elements fun e he => ⟨(has e he).1, read e he⟩
  exact ⟨_, nested_eq_ok_iff.2 ⟨p, hp, es', same ▸ hes, rfl, has'⟩⟩

/-- **Decoding in two steps**: a document is decoded in full exactly if it is decoded with embedded
documents left as bytes, and these bytes are decoded one level down. The two results have the same
elements, and what stands between them are the bytes of the embedded documents. -/
theorem nested_iff_noNest (config : Config) (deep : 2 ≤ config.maxNestingDepth) (bs : Bytes) :
    ((∃ d, config.decodeDocument .nested bs = .ok d) ↔
      ∃ s, config.decodeDocument .noNest bs = .ok s ∧
        ∀ name r, (name, Value.raw r) ∈ s →
          ∃ fs, config.below.decodeDocument .nested r.bytes = .ok fs) ∧
    ∀ d s, config.decodeDocument .nested bs = .ok d → config.decodeDocument .noNest bs = .ok s →
      ∃ p es, p <+: bs ∧ Delimited p ∧ HasElements config.arrayOrder p es ∧
        d = es.map Element.field ∧ s = es.map (fun e => e.unread.field) ∧
          ∀ e ∈ es, e.Opens config.below := by
  refine ⟨⟨?_, fun ⟨s, decoded, opens⟩ => nested_of_noNest deep decoded opens⟩, ?_⟩
  · intro hx
    obtain ⟨d, decoded⟩ := hx
    obtain ⟨p, es, -, -, has, -, noNest, opens⟩ := noNest_of_nested deep decoded
    refine ⟨_, noNest, fun name r hr => ?_⟩
    obtain ⟨e, he, field⟩ := List.mem_map.1 hr
    have here := opens e he
    have payload := (has.2 e he).2
    unfold Element.unread at field
    unfold Element.Opens at here
    by_cases embedded : e.type = .embeddedDocument
    · rw [if_pos embedded] at field here
      obtain ⟨fs, -, hfs⟩ := here
      injection field with _ hv
      injection hv with hv
      exact ⟨fs, hv ▸ hfs⟩
    · rw [if_neg embedded] at field
      injection field with _ hv
      have plain := payload.plain
      rw [hv] at plain
      cases plain
  · intro d s decoded noNest
    obtain ⟨p, es, prefixed, delimited, has, hd, hs, opens⟩ := noNest_of_nested deep decoded
    rw [hs] at noNest
    injection noNest with noNest
    exact ⟨p, es, prefixed, delimited, has, hd, noNest.symm, opens⟩

/-- two levels, and an embedded document that does not decode -/
theorem nested_iff_noNest_two_levels :
    let config : Config := ⟨16, 2, .numeric⟩
    let bs : Bytes := [16, 0, 0, 0, 3, 97, 0, 8, 0, 0, 0, 10, 98, 0, 0, 0]
    let cs : Bytes := [16, 0, 0, 0, 3, 97, 0, 8, 0, 0, 0, 32, 98, 0, 0, 0]
    (∃ d, config.decodeDocument .nested bs = .ok d) ∧
      (∃ s, config.decodeDocument .noNest cs = .ok s) ∧
        ¬ ∃ d, config.decodeDocument .nested cs = .ok d := by
  intro config bs cs
  have left : config.decodeDocument .noNest cs =
      .ok [("a", .raw ⟨[8, 0, 0, 0, 32, 98, 0, 0]⟩)] := rfl
  refine ⟨(nested_iff_noNest config (by decide) bs).1.2
    ⟨[("a", .raw ⟨[8, 0, 0, 0, 10, 98, 0, 0]⟩)], rfl, fun name r hr => ?_⟩, ⟨_, left⟩, fun hx => ?_⟩
  · injection List.mem_singleton.1 hr with _ hr
    injection hr with hr
    exact ⟨[("b", .null)], by rw [hr]; rfl⟩
  · obtain ⟨s, hs, opens⟩ := (nested_iff_noNest config (by decide) cs).1.1 hx
    rw [left] at hs
    injection hs with hs
    have field : ("a", Value.raw ⟨[8, 0, 0, 0, 32, 98, 0, 0]⟩) ∈ s := by
      rw [← hs]
      exact List.mem_singleton.2 rfl
    obtain ⟨fs, hfs⟩ := opens "a" _ field
    cases hfs

end Config

end Bson
