import Bson.Proofs.Fields.Sorted
import Bson.Proofs.Wire.Acceptance
import Bson.Proofs.Wire.Simulation

/-!
# Documents and maps

`Value.toMaps` makes maps of the documents in a value, through documents and arrays, and leaves the
scopes of code and bytes that were not read as they are; `Document.toMaps` is the same for a whole
document. Decoding into a map is decoding into a document and making maps of it
(`Config.decodeMap_eq`): the two fail together, and alike.
-/

namespace Bson

mutual

/-- documents made maps, through documents and arrays -/
def Value.toMaps : Value → Value
  | .document fs => .map (Document.toMap (toMapsInFields fs))
  | .array items => .array (toMapsInItems items)
  | v => v

def Value.toMapsInFields : List (String × Value) → List (String × Value)
  | [] => []
  | (name, v) :: rest => (name, v.toMaps) :: toMapsInFields rest

def Value.toMapsInItems : List Value → List Value
  | [] => []
  | v :: rest => v.toMaps :: toMapsInItems rest

end

def Document.toMaps (d : Document) : DocumentMap := Document.toMap (Value.toMapsInFields d)

namespace Value

theorem toMapsInFields_eq (fs : Fields Value) : toMapsInFields fs = fs.mapValues toMaps := by
  induction fs with
  | nil => rfl
  | cons f rest ih =>
    rw [toMapsInFields, ih]
    rfl

theorem toMapsInItems_eq (items : List Value) : toMapsInItems items = items.map toMaps := by
  induction items with
  | nil => rfl
  | cons v rest ih => rw [toMapsInItems, ih, List.map_cons]

theorem toMaps_document (fs : Fields Value) : (document fs).toMaps = map (Document.toMaps fs) := by
  rw [toMaps, Document.toMaps]

theorem toMaps_array (items : List Value) : (array items).toMaps = array (items.map toMaps) := by
  rw [toMaps, toMapsInItems_eq]

end Value

theorem Document.get?_toMaps (d : Document) (name : String) :
    Fields.get? name d.toMaps = (Fields.last? name d).map Value.toMaps := by
  rw [toMaps, toMap, Fields.get?_sorted, Value.toMapsInFields_eq, Fields.last?_mapValues]

example : Document.toMaps [("b", .null), ("a", .codeWithScope "" []), ("b", .document [])] =
    [("a", .codeWithScope "" []), ("b", .map [])] := rfl

/-- payloads read for a map are those read for a document with maps made of them -/
theorem recasts_toMaps : Recasts Value.toMaps .document .map where
  scalar h := by cases h <;> rfl
  raw _ := rfl
  scope _ _ := rfl
  array := Value.toMaps_array
  embedded fs := by
    show Value.toMaps (.document fs) = .map (Document.toMap (fs.mapValues Value.toMaps))
    rw [Value.toMaps_document, Document.toMaps, Value.toMapsInFields_eq]

/-- a container is read into a map as into a document, maps made of the values; a scope is read as a
document for either -/
theorem contents_toMaps (config : Config) (levels : Nat) :
    InnerFollowedBy (fun _ => False) Value.toMaps .document .map (contents config levels)
      (contents config levels) := by
  refine ⟨fun bs => ?_, fun bs => .of_eq _⟩
  induction levels generalizing bs with
  | zero => exact .inr rfl
  | succ levels ih =>
    refine elementsOf_followedBy lifted_none (fun tag => ?_) _
    exact Reader.followedBy_tagged lifted_none recasts_toMaps ⟨ih, fun bs => .of_eq _⟩ tag

namespace Config

theorem fields_toMaps (config : Config) (nesting : Nesting) (bs : Bytes) :
    config.fields .map nesting bs =
      (config.fields .document nesting bs).map (Fields.mapValues Value.toMaps) := by
  rw [fields_eq, fields_eq]
  cases front config.maxDocumentSize bs with
  | error e => rfl
  | ok p =>
    have inner := contents_toMaps config (config.maxNestingDepth - 1)
    have tagged (tag : UInt8) :
        (readTagged config.arrayOrder .document nesting _ tag).FollowedBy _ _
          (readTagged config.arrayOrder .map nesting _ tag) :=
      Reader.followedBy_tagged lifted_none recasts_toMaps inner tag
    rcases elementsOf_followedBy lifted_none tagged (p.drop 4) with ⟨_, h, _⟩ | h
    · exact h.elim
    · exact h

theorem decodeMap_of_decodeDocument {config : Config} {nesting : Nesting} {bs : Bytes}
    {d : Document} (read : config.decodeDocument nesting bs = .ok d) :
    config.decodeMap nesting bs = .ok d.toMaps := by
  rw [decodeDocument] at read
  rw [decodeMap, fields_toMaps, read, Document.toMaps, Value.toMapsInFields_eq]
  rfl

/-- **The two shapes agree**: decoding into a map fails where decoding into a document does, with
the same error, and gives the document with its documents made maps otherwise; such a map holds the
last value of each name, and each name once. -/
theorem decodeMap_eq (config : Config) (nesting : Nesting) (bs : Bytes) :
    config.decodeMap nesting bs = (config.decodeDocument nesting bs).map Document.toMaps ∧
      ∀ d : Document, Fields.Sorted d.toMaps ∧
        ∀ name, Fields.get? name d.toMaps = (Fields.last? name d).map Value.toMaps := by
  refine ⟨?_, fun d => ⟨Fields.sorted_strict _, d.get?_toMaps⟩⟩
  rw [decodeMap, decodeDocument, fields_toMaps]
  cases config.fields .document nesting bs with
  | error e => rfl
  | ok fs =>
    show Except.ok (Document.toMap (fs.mapValues Value.toMaps)) = Except.ok (Document.toMaps fs)
    rw [Document.toMaps, Value.toMapsInFields_eq]

end Config

end Bson
