import Bson.Proofs.Access.Refusals
import Bson.Proofs.Access.Transparency
import Bson.Proofs.Fields.Merged
import Bson.Proofs.Shape.Maps

/-!
# Look-ups in maps

Of a repeated name, a document shows the first field and a map the last. Bytes that were left in a
map are looked into as a document.

* `Value.MeetsOnce`     each name of a path stands once in the document or map that it is looked
                        for in;
* `Value.IntoScope`     the path goes into the scope of code, which stays a document in a map;
* `Value.lookup_toMaps` along a path that meets each of its names once, a value answers like the
                        same value with its documents made maps;
* `DocumentMap.lookup_through_bytes`  a map that was decoded without looking into embedded
                        documents answers along every path of two names or more like the document
                        with its top alone made a map, and along those that meet each of their
                        names once like the map that was decoded in full.
-/

namespace Bson

open Grammar

namespace Value

/-- each name of the path stands at most once in the document or map that it is looked for in -/
def MeetsOnce : List String → Value → Prop
  | [], _ => True
  | name :: rest, v => ∀ fs, v.fields? = some fs →
    (Fields.names fs).count name ≤ 1 ∧ ∀ u, Fields.get? name fs = some u → MeetsOnce rest u

/-- the path goes into the scope of code -/
inductive IntoScope : List String → Value → Prop
  | scope {code : String} {scope : Fields Value} {rest : List String} :
      IntoScope ("Scope" :: rest) (codeWithScope code scope)
  | field {v u : Value} {fs : Fields Value} {name : String} {rest : List String} :
      v.fields? = some fs → Fields.get? name fs = some u → IntoScope rest u →
      IntoScope (name :: rest) v

variable {v u w : Value} {name : String} {rest path : List String} {found : Option Value}

/-! ### values without anything inside -/

theorem toMaps_of_scalar (h : v.elementType.isContainer = false) : v.toMaps = v := by
  cases v <;> first | rfl | cases h

/-- the parts of a value hold nothing, but for the scope of code -/
theorem scalar_or_scope_of_part? (part : v.part? name = some u) :
    u.elementType.isContainer = false ∨
      name = "Scope" ∧ ∃ code fs, v = codeWithScope code fs := by
  cases v with
  | regex | dbPointer =>
    rw [part?] at part
    split at part
    · cases part
      exact .inl rfl
    · split at part
      · cases part
        exact .inl rfl
      · cases part
  | codeWithScope code scope =>
    rw [part?] at part
    split at part
    · cases part
      exact .inl rfl
    · split at part
      · rename_i named
        exact .inr ⟨named, code, scope, rfl⟩
      · cases part
  | _ => cases part

theorem scalar_of_lookup (scalar : v.elementType.isContainer = false)
    (leads : v.lookup path = .ok (some w)) : w.elementType.isContainer = false := by
  induction path generalizing v with
  | nil =>
    cases leads
    exact scalar
  | cons name rest ih =>
    obtain ⟨u, child, leads⟩ := lookup_cons_eq_ok_some_iff.1 leads
    have part : v.part? name = some u := by
      cases v with
      | document | map | array | raw | codeWithScope => cases scalar
      | _ =>
        injection child
    rcases scalar_or_scope_of_part? part with scalar | ⟨-, code, fs, rfl⟩
    · exact ih scalar leads
    · cases scalar

/-! ### documents made maps -/

/-- only documents show other children once they are maps -/
theorem child?_toMaps (other : ∀ fs, v ≠ document fs) (name : String) :
    v.toMaps.child? name = v.child? name := by
  cases v with
  | document fs => exact absurd rfl (other fs)
  | _ => rfl

theorem lookup_toMaps_of_ne (other : ∀ fs, v ≠ document fs) (name : String) (rest : List String) :
    v.toMaps.lookup (name :: rest) = v.lookup (name :: rest) := by
  rw [lookup_cons, lookup_cons, child?_toMaps other]

/-- what a path finds in a value that is no document is the same in a map, unless it goes into a
scope -/
theorem toMaps_of_found (other : v.fields? = none) (read : ∀ doc, v ≠ raw doc)
    (apart : ¬ IntoScope (name :: rest) v) (leads : v.lookup (name :: rest) = .ok (some w)) :
    w.toMaps = w := by
  obtain ⟨u, child, leads⟩ := lookup_cons_eq_ok_some_iff.1 leads
  rcases (child?_eq_ok_some_iff read).1 child with ⟨_, _, fields, -⟩ | part
  · rw [other] at fields
    cases fields
  · rcases scalar_or_scope_of_part? part with scalar | ⟨rfl, code, fs, rfl⟩
    · exact toMaps_of_scalar (scalar_of_lookup scalar leads)
    · exact absurd .scope apart

theorem intoScope_iff_of_fields {fs : Fields Value} (h : v.fields? = some fs) :
    IntoScope (name :: rest) v ↔ ∃ u, Fields.get? name fs = some u ∧ IntoScope rest u := by
  refine ⟨fun into => ?_, fun ⟨u, child, into⟩ => .field h child into⟩
  cases into with
  | scope => cases h
  | field fields child into =>
    obtain rfl := Option.some.inj (h.symm.trans fields)
    exact ⟨_, child, into⟩

theorem child?_toMaps_of_once {fs : Fields Value} (once : (Fields.names fs).count name ≤ 1) :
    (document fs).toMaps.child? name = .ok ((Fields.get? name fs).map toMaps) := by
  rw [toMaps_document, child?, Document.get?_toMaps, Fields.last?_eq_get? once]

/-- **The same walk in the two shapes**: a plain value and the same with its documents made maps
lead along a path to the same place, if each name of the path stands once. What is found there has
its documents made maps, unless it stands in a scope. -/
theorem lookup_toMaps (plain : v.plain) (once : MeetsOnce path v)
    (leads : v.lookup path = .ok found) :
    (¬ IntoScope path v → v.toMaps.lookup path = .ok (found.map toMaps)) ∧
      (IntoScope path v → v.toMaps.lookup path = .ok found) := by
  induction path generalizing v found with
  | nil =>
    cases leads
    exact ⟨fun _ => rfl, nofun⟩
  | cons name rest ih =>
    obtain ⟨here, inside⟩ := everywhere_iff.1 plain
    by_cases embedded : ∃ fs, v = document fs
    · obtain ⟨fs, rfl⟩ := embedded
      obtain ⟨count, more⟩ := once fs rfl
      rw [lookup_cons_of_child rfl] at leads
      rw [lookup_cons_of_child (child?_toMaps_of_once count), intoScope_iff_of_fields rfl]
      cases child : Fields.get? name fs with
      | none =>
        rw [child] at leads
        cases leads
        exact ⟨fun _ => rfl, fun _ => rfl⟩
      | some u =>
        rw [child] at leads
        obtain ⟨before, after, rfl, -⟩ := Fields.get?_eq_some_iff.1 child
        have member : u ∈ (before ++ (name, u) :: after).map Prod.snd := by simp
        have below := ih (inside u member) (more u child) (inField_eq_ok_iff.1 leads)
        simp only [Option.some.injEq, exists_eq_left']
        exact ⟨fun apart => inField_eq_ok_iff.2 (below.1 apart),
          fun into => inField_eq_ok_iff.2 (below.2 into)⟩
    · -- anything but a document is the same in a map, and so is what is found in it
      have other : ∀ fs, v ≠ document fs := not_exists.1 embedded
      rw [lookup_toMaps_of_ne other, leads]
      refine ⟨fun apart => ?_, fun _ => rfl⟩
      cases found with
      | none => rfl
      | some w =>
        have unmapped : v.fields? = none := by
          cases v with
          | document fs => exact absurd rfl (other fs)
          | map => cases here
          | _ => rfl
        have read : ∀ doc, v ≠ raw doc := by
          rintro doc rfl
          cases here
        rw [Option.map_some, toMaps_of_found unmapped read apart leads]

end Value

/-! ### maps that were decoded without looking into embedded documents -/

namespace Grammar.Element

theorem last?_fields (name : String) (es : List Element) :
    (Fields.last? name (es.map field) = none ∧
      Fields.last? name (es.map fun e => e.unread.field) = none) ∨
    ∃ e ∈ es, Fields.last? name (es.map field) = some e.value ∧
      Fields.last? name (es.map fun e => e.unread.field) = some e.unread.value := by
  -- both lists are the elements under their names, with a function at each
  let named : Fields Element := es.map fun e => (e.name, e)
  have read : es.map field = named.mapValues value := by
    simp [named, Fields.mapValues, field]
  have unread : (es.map fun e => e.unread.field) = named.mapValues fun e => e.unread.value := by
    simp [named, Fields.mapValues, field]
  rw [read, unread, Fields.last?_mapValues, Fields.last?_mapValues]
  cases found : Fields.last? name named with
  | none => exact .inl ⟨rfl, rfl⟩
  | some e =>
    obtain ⟨g, hg, same⟩ := List.mem_map.1 (Fields.mem_of_last? found)
    injection same with _ same
    exact .inr ⟨e, same ▸ hg, rfl, rfl⟩

/-- past its name, an element that was left as bytes is walked into as a document, and any other
stands there as it is -/
theorem lookup_unread_toMaps {e : Element} (opens : e.Opens Config.standard.below) (name : String)
    (rest : List String) :
    e.unread.value.toMaps.lookup (name :: rest) = e.value.lookup (name :: rest) := by
  rw [← lookup_unread opens]
  rcases unread_value opens with ⟨fs, -, unread, -⟩ | ⟨other, same⟩
  · rw [unread]
    rfl
  · rw [same]
    exact Value.lookup_toMaps_of_ne other name rest

end Grammar.Element

namespace DocumentMap

open Value

/-- a look-up in a document made a map goes on from the last field of the first name -/
theorem lookup_toMap (name : String) (rest : List String) (d : Document) :
    DocumentMap.lookup (name :: rest) d.toMap = follow name rest (Fields.last? name d) := by
  show lookupField name rest _ = _
  rw [lookupField_eq, Document.toMap, Fields.get?_sorted]

theorem lookup_toMaps_cons (name : String) (rest : List String) (d : Document) :
    DocumentMap.lookup (name :: rest) d.toMaps =
      follow name rest ((Fields.last? name d).map toMaps) := by
  show lookupField name rest _ = _
  rw [lookupField_eq, Document.get?_toMaps]

theorem intoScope_toMap_iff {name : String} {rest : List String} {d : Document} :
    IntoScope (name :: rest) (map d.toMap) ↔
      ∃ u, Fields.last? name d = some u ∧ IntoScope rest u := by
  rw [← Fields.get?_sorted]
  exact intoScope_iff_of_fields rfl

/-- **Looking through bytes in a map**: a map that was decoded without looking into embedded
documents refuses no look-up along two names or more. It answers like the decoded document with its
top alone made a map, that is by the last field of the first name and by the first field of every
other. If each name on the way stands once, the map that was decoded in full leads to the same
value, with its documents made maps unless it stands in a scope. -/
theorem lookup_through_bytes {bs : Bytes} {m : DocumentMap}
    (decoded : Config.standard.decodeMap .nested bs = .ok m) :
    ∃ d n, Config.standard.decodeDocument .nested bs = .ok d ∧
      Config.standard.decodeMap .noNest bs = .ok n ∧
      ∀ first second rest, let path := first :: second :: rest
        ∃ found, n.lookup path = .ok found ∧ DocumentMap.lookup path d.toMap = .ok found ∧
          (MeetsOnce path (map d.toMap) →
            (¬ IntoScope path (map d.toMap) → m.lookup path = .ok (found.map toMaps)) ∧
              (IntoScope path (map d.toMap) → m.lookup path = .ok found)) := by
  rw [(Config.decodeMap_eq .standard .nested bs).1] at decoded
  obtain ⟨d, hd, rfl⟩ := Except.map_eq_ok_iff.1 decoded
  obtain ⟨p, es, -, -, has, rfl, unread, opens⟩ := Config.noNest_of_nested (by decide) hd
  refine ⟨_, _, hd, Config.decodeMap_of_decodeDocument unread, fun first second rest => ?_⟩
  intro path
  rw [lookup_toMap, lookup_toMaps_cons, lookup_toMaps_cons, intoScope_toMap_iff]
  rcases Element.last?_fields first es with ⟨none, none'⟩ | ⟨e, he, last, last'⟩
  · rw [none, none']
    exact ⟨_, rfl, rfl, fun _ => ⟨fun _ => rfl, fun _ => rfl⟩⟩
  · have plain := (has.2 e he).2.plain
    obtain ⟨found, leads, -⟩ := lookup_plain plain (second :: rest)
    have through : e.unread.value.toMaps.lookup (second :: rest) = .ok found :=
      (Element.lookup_unread_toMaps (opens e he) second rest).trans leads
    rw [last, last']
    refine ⟨found, inField_eq_ok_iff.2 through, inField_eq_ok_iff.2 leads, fun once => ?_⟩
    have below := (once _ rfl).2 e.value ((Fields.get?_sorted first _).trans last)
    obtain ⟨apart, into⟩ := Value.lookup_toMaps plain below leads
    simp only [Option.some.injEq, exists_eq_left']
    exact ⟨fun outside => inField_eq_ok_iff.2 (apart outside),
      fun inside => inField_eq_ok_iff.2 (into inside)⟩

/-- the last of two fields at the top, and a name that stands once inside it -/
theorem lookup_through_bytes_last_field :
    let bs : Bytes := [27, 0, 0, 0, 10, 97, 0, 3, 97, 0, 16, 0, 0, 0, 3, 120, 0, 8, 0, 0, 0, 10,
      121, 0, 0, 0, 0]
    ∃ m n, Config.standard.decodeMap .nested bs = .ok m ∧
      Config.standard.decodeMap .noNest bs = .ok n ∧
        n.lookup ["a", "x"] = .ok (some (.document [("y", .null)])) ∧
          m.lookup ["a", "x"] = .ok (some (.map [("y", .null)])) := by
  intro bs
  let d : Document := [("a", .null), ("a", .document [("x", .document [("y", .null)])])]
  have read : Config.standard.decodeDocument .nested bs = .ok d := rfl
  have decoded := Config.decodeMap_of_decodeDocument read
  obtain ⟨d', n, read', unread, answers⟩ := lookup_through_bytes decoded
  obtain rfl : d = d' := Except.ok.inj (read.symm.trans read')
  obtain ⟨found, there, top, alike⟩ := answers "a" "x" []
  obtain rfl : some (Value.document [("y", .null)]) = found := Except.ok.inj top
  have once : MeetsOnce ["a", "x"] (map d.toMap) := by
    rintro _ ⟨⟩
    refine ⟨by decide, ?_⟩
    rintro _ ⟨⟩ _ ⟨⟩
    exact ⟨by decide, fun _ _ => trivial⟩
  have apart : ¬ IntoScope ["a", "x"] (map d.toMap) := by
    rw [intoScope_toMap_iff]
    rintro ⟨_, ⟨⟩, into⟩
    obtain ⟨_, ⟨⟩, into⟩ := (intoScope_iff_of_fields rfl).1 into
    cases into
  exact ⟨_, n, decoded, unread, there, (alike once).1 apart⟩

/-- a name that stands twice inside an embedded document: its first field is found through the
bytes, and its last one in the map that was decoded in full. And the scope of code, which is a
document in both maps. -/
theorem lookup_through_bytes_repeated :
    let bs : Bytes := [27, 0, 0, 0, 3, 97, 0, 19, 0, 0, 0, 16, 120, 0, 1, 0, 0, 0, 16, 120, 0, 2, 0,
      0, 0, 0, 0]
    let code : Bytes := [22, 0, 0, 0, 15, 99, 0, 14, 0, 0, 0, 1, 0, 0, 0, 0, 5, 0, 0, 0, 0, 0]
    (∃ m n, Config.standard.decodeMap .nested bs = .ok m ∧
      Config.standard.decodeMap .noNest bs = .ok n ∧
        n.lookup ["a", "x"] = .ok (some (.int32 1)) ∧ m.lookup ["a", "x"] = .ok (some (.int32 2)) ∧
          (Value.int32 1).toMaps ≠ .int32 2) ∧
    ∃ m n, Config.standard.decodeMap .nested code = .ok m ∧
      Config.standard.decodeMap .noNest code = .ok n ∧
        n.lookup ["c", "Scope"] = .ok (some (.document [])) ∧
          m.lookup ["c", "Scope"] = .ok (some (.document [])) ∧
            (Value.document []).toMaps ≠ .document [] := by
  intro bs code
  let n : DocumentMap := [("a", .raw ⟨[19, 0, 0, 0, 16, 120, 0, 1, 0, 0, 0, 16, 120, 0, 2, 0, 0, 0,
    0]⟩)]
  let same : DocumentMap := [("c", .codeWithScope "" [])]
  refine ⟨⟨[("a", .map [("x", .int32 2)])], n, rfl, rfl, rfl, rfl, fun found => ?_⟩,
    same, same, rfl, rfl, rfl, rfl, nofun⟩
  injection found with found
  exact absurd found (by decide)

end DocumentMap

end Bson
