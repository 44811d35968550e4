import Bson.Access.Reach
import Bson.Proofs.Access.Walk
import Bson.Proofs.Wire.NoNest

/-!
# Looking through documents that were left as bytes

* `Value.lookup_raw`    bytes that decode are walked into as the document they decode to;
* `Element.lookup_unread`  so a look-up behind an element does not see whether it was read;
* `Document.lookup_noNest`  the two ways of decoding a document answer alike along every path of two
                        names or more, and along a single name up to the document that stands
                        there.
-/

namespace Bson

open Grammar

theorem Value.lookup_raw {doc : RawDocument} {fs : Document} (h : doc.toDocument = .ok fs)
    (name : String) (rest : List String) :
    (raw doc).lookup (name :: rest) = (document fs).lookup (name :: rest) := by
  have child : (raw doc).child? name = (document fs).child? name := by
    show doc.toDocument.map _ = Except.ok (Fields.get? name fs)
    rw [h]
    rfl
  rw [lookup_cons, lookup_cons, child]

namespace Grammar.Element

theorem get?_fields (name : String) (es : List Element) :
    (Fields.get? name (es.map field) = none ∧
      Fields.get? name (es.map fun e => e.unread.field) = none) ∨
    ∃ e ∈ es, Fields.get? name (es.map field) = some e.value ∧
      Fields.get? name (es.map fun e => e.unread.field) = some e.unread.value := by
  induction es with
  | nil => exact .inl ⟨rfl, rfl⟩
  | cons e es ih =>
    show (Fields.get? name ((e.name, e.value) :: es.map field) = none ∧
        Fields.get? name ((e.unread.name, e.unread.value) :: es.map _) = none) ∨
      ∃ g ∈ e :: es, Fields.get? name ((e.name, e.value) :: es.map field) = some g.value ∧
        Fields.get? name ((e.unread.name, e.unread.value) :: es.map _) = some g.unread.value
    rw [unread_name, Fields.get?, Fields.get?]
    by_cases same : e.name = name
    · rw [if_pos same, if_pos same]
      exact .inr ⟨e, .head _, rfl, rfl⟩
    · rw [if_neg same, if_neg same]
      rcases ih with missing | ⟨g, hg, found⟩
      · exact .inl missing
      · exact .inr ⟨g, .tail _ hg, found⟩

/-- an element that was left as bytes opens to its value; every other element was read -/
theorem unread_value {config : Config} {e : Element} (opens : e.Opens config) :
    (∃ fs, e.value = .document fs ∧ e.unread.value = .raw ⟨e.payload⟩ ∧
      config.decodeDocument .nested e.payload = .ok fs) ∨
    (∀ fs, e.value ≠ .document fs) ∧ e.unread.value = e.value := by
  unfold Opens at opens
  unfold unread
  by_cases embedded : e.type = .embeddedDocument
  · rw [if_pos embedded] at opens ⊢
    obtain ⟨fs, value, decoded⟩ := opens
    exact .inl ⟨fs, value, rfl, decoded⟩
  · rw [if_neg embedded] at opens ⊢
    exact .inr ⟨opens, rfl⟩

theorem lookup_unread {e : Element} (opens : e.Opens Config.standard.below) (name : String)
    (rest : List String) :
    e.unread.value.lookup (name :: rest) = e.value.lookup (name :: rest) := by
  rcases unread_value opens with ⟨fs, value, unread, decoded⟩ | ⟨-, same⟩
  · have document : RawDocument.toDocument ⟨e.payload⟩ = .ok fs :=
      Config.decodeDocument_of_below decoded
    rw [unread, value, Value.lookup_raw document]
  · rw [same]

end Grammar.Element

namespace Document

variable {s d : Document}

theorem lookup_of_missing {name : String} (h : Fields.get? name d = none) (rest : List String) :
    d.lookup (name :: rest) = .ok none := by
  show lookupField name rest d = _
  rw [lookupField, h]

theorem lookup_of_found {name : String} {v : Value} (h : Fields.get? name d = some v)
    (rest : List String) : d.lookup (name :: rest) = inField name (v.lookup rest) := by
  show lookupField name rest d = _
  rw [lookupField, h]

section Elements

variable {es : List Element}

/-- past the first name, the walk is in documents that were read, then or now -/
theorem lookup_unread_fields (opens : ∀ e ∈ es, e.Opens Config.standard.below)
    (first second : String) (rest : List String) :
    lookup (first :: second :: rest) (es.map fun e => e.unread.field) =
      lookup (first :: second :: rest) (es.map Element.field) := by
  rcases Element.get?_fields first es with ⟨read, unread⟩ | ⟨e, he, read, unread⟩
  · rw [lookup_of_missing read, lookup_of_missing unread]
  · rw [lookup_of_found read, lookup_of_found unread, Element.lookup_unread (opens e he)]

theorem lookup_unread_field (opens : ∀ e ∈ es, e.Opens Config.standard.below) (name : String) :
    (lookup [name] (es.map fun e => e.unread.field) = lookup [name] (es.map Element.field) ∧
      ∀ fs, lookup [name] (es.map Element.field) ≠ .ok (some (.document fs))) ∨
    ∃ fs r, lookup [name] (es.map Element.field) = .ok (some (.document fs)) ∧
      lookup [name] (es.map fun e => e.unread.field) = .ok (some (.raw r)) ∧
        r.toDocument = .ok fs := by
  rcases Element.get?_fields name es with ⟨read, unread⟩ | ⟨e, he, read, unread⟩
  · rw [lookup_of_missing read, lookup_of_missing unread]
    exact .inl ⟨rfl, fun fs hfs => by cases hfs⟩
  · have here : lookup [name] (es.map Element.field) = .ok (some e.value) :=
      lookup_of_found read []
    have there : lookup [name] (es.map fun e => e.unread.field) = .ok (some e.unread.value) :=
      lookup_of_found unread []
    rw [here, there]
    rcases Element.unread_value (opens e he) with ⟨fs, value, bytes, below⟩ | ⟨other, same⟩
    · rw [value, bytes]
      exact .inr ⟨fs, ⟨e.payload⟩, rfl, rfl, Config.decodeDocument_of_below below⟩
    · rw [same]
      refine .inl ⟨rfl, fun fs hfs => ?_⟩
      injection hfs with hfs
      injection hfs with hfs
      exact other fs hfs

end Elements

/-- no look-up along the path is refused, both find the same, and put it into any target with the
same outcome -/
def AlikeAt (s d : Document) (path : List String) : Prop :=
  (∃ found, s.lookup path = .ok found ∧ d.lookup path = .ok found) ∧
    ∀ (t : Target) (content : t.Content), s.reach t path content = d.reach t path content

theorem AlikeAt.of_eq {path : List String} (same : s.lookup path = d.lookup path)
    (ok : ∃ found, d.lookup path = .ok found) : AlikeAt s d path := by
  obtain ⟨found, hfound⟩ := ok
  refine ⟨⟨found, same.trans hfound, hfound⟩, fun t content => ?_⟩
  rw [reach, reach, same]

/-- **Reading through bytes**: a document that was decoded in full, and the same with its embedded
documents left as bytes, answer alike along every path of two names or more; along a single name
they do too, unless it names an embedded document, in whose place the bytes stand that decode to it.
Both find what the path leads to, through the first field of each name. -/
theorem lookup_noNest {bs : Bytes} {d : Document}
    (decoded : Config.standard.decodeDocument .nested bs = .ok d) :
    ∃ s, Config.standard.decodeDocument .noNest bs = .ok s ∧
      (∀ first second rest, AlikeAt s d (first :: second :: rest)) ∧
      (∀ name, (AlikeAt s d [name] ∧ ∀ fs, d.lookup [name] ≠ .ok (some (.document fs))) ∨
        ∃ fs r, d.lookup [name] = .ok (some (.document fs)) ∧
          s.lookup [name] = .ok (some (.raw r)) ∧ r.toDocument = .ok fs) ∧
      ∀ path w, d.lookup path = .ok (some w) ↔ (Value.document d).Finds path w := by
  obtain ⟨p, es, -, delimited, has, rfl, noNest, opens⟩ :=
    Config.noNest_of_nested (by decide) decoded
  have hdoc := isDocument_iff_elements.2 ⟨delimited, es, has, rfl⟩
  have plain := (IsPayload.embeddedDocument hdoc).plain
  have answers (path : List String) : ∃ found, lookup path (es.map Element.field) = .ok found ∧
      ∀ w, found = some w ↔ (Value.document (es.map Element.field)).Finds path w := by
    rw [lookup_eq]
    exact Value.lookup_plain plain path
  have found (path : List String) : ∃ found, lookup path (es.map Element.field) = .ok found :=
    (answers path).imp fun _ h => h.1
  refine ⟨_, noNest, fun first second rest => ?_, fun name => ?_, fun path w => ?_⟩
  · exact .of_eq (lookup_unread_fields opens first second rest) (found _)
  · exact (lookup_unread_field opens name).imp_left (And.imp_left fun same => .of_eq same (found _))
  · obtain ⟨v, hv, leads⟩ := answers path
    rw [hv, ← leads, Except.ok.injEq]

/-- the pattern of an expression in a document that was left as bytes, past repeated names -/
theorem lookup_noNest_pattern :
    let bs : Bytes := [26, 0, 0, 0, 3, 97, 0, 15, 0, 0, 0, 11, 120, 0, 112, 0, 105, 0, 10, 120, 0,
      0, 10, 97, 0, 0]
    ∃ s, Config.standard.decodeDocument .noNest bs = .ok s ∧
      s.lookup ["a", "x", "Pattern"] = .ok (some (.string "p")) ∧
        ∃ r, s.lookup ["a"] = .ok (some (.raw r)) := by
  intro bs
  have decoded : Config.standard.decodeDocument .nested bs =
      .ok [("a", .document [("x", .regex ⟨"p", "i"⟩), ("x", .null)]), ("a", .null)] := rfl
  obtain ⟨s, noNest, alike, single, -⟩ := lookup_noNest decoded
  refine ⟨s, noNest, ?_, ?_⟩
  · obtain ⟨⟨found, there, here⟩, -⟩ := alike "a" "x" ["Pattern"]
    rw [there, ← here]
    rfl
  · rcases single "a" with ⟨-, other⟩ | ⟨fs, r, -, there, -⟩
    · exact absurd rfl (other _)
    · exact ⟨r, there⟩

end Document

end Bson
