import Bson.Proofs.Double.Standard
import Bson.Proofs.Fields.Merged
import Bson.Proofs.Json.Markers
import Bson.Proofs.Text.Base64
import Bson.Proofs.Text.Hex
import Bson.Proofs.Value.Children

/-!
# Values read back from the JSON they are written as

* `Value.standard`          a value with every NaN in it made one;
* `Value.readable`          whether nothing in a value loses its type or its fields in JSON: no maps,
                            no bytes that were not read, no repeated names, and no document that is
                            written as an object with a marker;
* `Value.ofJson_rendered`   a readable value is read back, with every NaN made one;
* `Value.toJson_of_readable`  and is written in the first place.

The markers of a scope itself do not matter, since a scope is read as a document.
-/

namespace Bson

/-! ### every NaN made one -/

mutual

/-- the same value with `Double.standard` at every double -/
def Value.standard : Value → Value
  | .double d => .double d.standard
  | .document fs => .document (standardInFields fs)
  | .map fs => .map (standardInFields fs)
  | .array items => .array (standardInItems items)
  | .codeWithScope code scope => .codeWithScope code (standardInFields scope)
  | v => v

def Value.standardInFields : List (String × Value) → List (String × Value)
  | [] => []
  | (name, v) :: rest => (name, v.standard) :: standardInFields rest

def Value.standardInItems : List Value → List Value
  | [] => []
  | v :: rest => v.standard :: standardInItems rest

end

namespace Value

theorem standardInFields_eq (fs : Fields Value) : standardInFields fs = fs.mapValues standard := by
  induction fs with
  | nil => rfl
  | cons f rest ih =>
    rw [standardInFields, ih]
    rfl

theorem standardInItems_eq (items : List Value) : standardInItems items = items.map standard := by
  induction items with
  | nil => rfl
  | cons v rest ih => rw [standardInItems, ih, List.map_cons]

theorem standard_standard (v : Value) : v.standard.standard = v.standard := by
  induction v using childInduction with
  | step v ih =>
    have fields {fs : Fields Value} (hfs : v.children = fs.map Prod.snd) :
        (fs.mapValues standard).mapValues standard = fs.mapValues standard := by
      rw [hfs, List.forall_mem_map] at ih
      rw [Fields.mapValues_mapValues]
      exact Fields.mapValues_congr ih
    cases v with
    | document fs | map fs | codeWithScope _ fs =>
      simp only [standard, standardInFields_eq]
      rw [fields rfl]
    | array items =>
      have each : items.map (standard ∘ standard) = items.map standard := List.map_congr_left ih
      simp only [standard, standardInItems_eq]
      rw [List.map_map, each]
    | double d => rw [standard, standard, Double.standard_standard]
    | _ => rfl

end Value

theorem renderedFields_eq (fs : Fields Value) : renderedFields fs = fs.mapValues Value.rendered := by
  induction fs with
  | nil => rfl
  | cons f rest ih =>
    rw [renderedFields, ih]
    rfl

theorem renderedItems_eq (items : List Value) : renderedItems items = items.map Value.rendered := by
  induction items with
  | nil => rfl
  | cons v rest ih => rw [renderedItems, ih, List.map_cons]

namespace Value

/-! ### numbers -/

theorem toInt64?_ofInt64 (n : Int64) : (Json.Number.ofInt64 n).toInt64? = some n := by
  rw [Json.Number.ofInt64]
  by_cases negative : n < 0
  · rw [if_pos negative]
    rfl
  · have small := n.toInt_lt
    have positive : ¬ n.toInt < 0 := fun h => negative (Int64.lt_iff_toInt_lt.2 h)
    have bits : n.toInt = n.toBitVec.toInt := rfl
    have natural : n.toUInt64.toNat = n.toBitVec.toNat := rfl
    rw [BitVec.toInt_eq_toNat_cond] at bits
    have low : n.toUInt64.toNat < 0x8000000000000000 := by omega
    rw [if_neg negative, Json.Number.toInt64?, if_pos low]
    rfl

theorem asInt64?_integerJson (n : Int64) : (integerJson n).asInt64? = some n := toInt64?_ofInt64 n

theorem ofJson_integerJson (n : Int32) : ofJson (integerJson n.toInt64) = .ok (.int32 n) := by
  show Except.ok (numberValue (.ofInt64 n.toInt64)) = _
  rw [numberValue, toInt64?_ofInt64]
  simp only [Int32.toInt32_toInt64]
  rfl

theorem numberLong_ofInt (n : Int64) : numberLong (Decimal.ofInt n.toInt) = .ok (.int64 n) := by
  rw [numberLong, Decimal.signed?_ofInt n.le_toInt n.toInt_lt]
  show Except.ok (int64 (Int64.ofInt n.toInt)) = _
  rw [Int64.ofInt_toInt]

theorem ofJson_double (d : Double) : ofJson d.toJson = .ok (.double d.standard) := by
  rw [Double.toJson]
  cases finite : d.isFinite with
  | true =>
    rw [if_pos rfl, Double.standard_of_not_nan (Double.not_nan_of_finite finite)]
    rfl
  | false =>
    rw [if_neg Bool.false_ne_true]
    show numberDouble d.display = _
    rw [numberDouble, Double.literal?_display finite]

theorem ofJson_of_markers {members : Fields Json} {result : Except Error Value}
    (h : ofMarkers? members (fun _ => scopeOfMembers members) = some result) :
    ofJson (.object members) = result := by
  rw [ofJson, h]

theorem ofJson_rendered_of_hasMarker {v : Value} (h : v.hasMarker) :
    ofJson v.rendered = .ok v.standard := by
  cases v with
  | null | boolean | int32 | string | array | document | map | codeWithScope | raw => cases h
  | double d => exact ofJson_double d
  | int64 n => exact numberLong_ofInt n
  | objectId id =>
    show (ObjectId.locatedHex id.hex).map _ = _
    rw [ObjectId.locatedHex_hex]
    rfl
  | dbPointer p =>
    show (ObjectId.locatedHex p.id.hex).map _ = _
    rw [ObjectId.locatedHex_hex]
    rfl
  | binary bs =>
    show binaryData (Base64.encode bs) = _
    rw [binaryData, Base64.decode_encoded]
    rfl
  | dateTime n =>
    refine ofJson_of_markers ?_
    show (none <|> (integerJson n).asInt64?.map (fun n => Except.ok (dateTime n)) <|> _) = _
    rw [asInt64?_integerJson]
    rfl
  | timestamp n =>
    refine ofJson_of_markers ?_
    show (none <|> none <|> (integerJson n).asInt64?.map (fun n => Except.ok (timestamp n)) <|> _) = _
    rw [asInt64?_integerJson]
    rfl
  | regex | javaScript | symbol | undefined | minKey | maxKey => rfl

theorem ofJson_of_unmarked {members : Fields Json} (h : Unmarked members) :
    ofJson (.object members) =
      (fieldsOfMembers members).map fun fs => document (Fields.merge fs) := by
  rw [ofJson, ofMarkers?_eq_none_iff.2 h]

/-! ### readable values -/

/-- whether no field has the name of a marker with a value of its kind once it is written -/
def unmarked (fs : Fields Value) : Bool := (ofMarkers? (renderedFields fs) fun _ => .absent).isNone

theorem unmarked_iff {fs : Fields Value} : unmarked fs ↔ Unmarked (fs.mapValues rendered) := by
  rw [unmarked, Option.isNone_iff_eq_none, ofMarkers?_eq_none_iff, renderedFields_eq]

/-- whether a value comes back from JSON with its types and all its fields -/
def readable : Value → Bool :=
  everywhere fun
    | map _ | raw _ => false
    | document fs => decide (Fields.names fs).Nodup && unmarked fs
    | codeWithScope _ fs => decide (Fields.names fs).Nodup
    | _ => true

theorem readable_document_iff {fs : Fields Value} :
    (document fs).readable ↔ (Fields.names fs).Nodup ∧ unmarked fs ∧ ∀ f ∈ fs, f.2.readable := by
  refine everywhere_iff.trans ?_
  rw [Bool.and_eq_true, decide_eq_true_eq, and_assoc, children, List.forall_mem_map]
  rfl

theorem readable_array_iff {items : List Value} :
    (array items).readable ↔ ∀ v ∈ items, v.readable :=
  everywhere_iff.trans (and_iff_right rfl)

theorem readable_codeWithScope_iff {code : String} {fs : Fields Value} :
    (codeWithScope code fs).readable ↔ (Fields.names fs).Nodup ∧ ∀ f ∈ fs, f.2.readable := by
  refine everywhere_iff.trans ?_
  rw [decide_eq_true_eq, children, List.forall_mem_map]
  rfl

theorem valuesOfItems_map {f : Value → Json} {g : Value → Value} {items : List Value}
    (h : ∀ v ∈ items, ofJson (f v) = .ok (g v)) (i : Nat) :
    valuesOfItems i (items.map f) = .ok (items.map g) := by
  induction items generalizing i with
  | nil => rfl
  | cons v rest ih =>
    obtain ⟨first, more⟩ := List.forall_mem_cons.1 h
    rw [List.map_cons, valuesOfItems, first, ih more]
    rfl

theorem fieldsOfMembers_mapValues {f : Value → Json} {g : Value → Value} {fs : Fields Value}
    (h : ∀ e ∈ fs, ofJson (f e.2) = .ok (g e.2)) :
    fieldsOfMembers (fs.mapValues f) = .ok (fs.mapValues g) := by
  induction fs with
  | nil => rfl
  | cons e rest ih =>
    obtain ⟨first, more⟩ := List.forall_mem_cons.1 h
    show fieldsOfMembers ((e.1, f e.2) :: Fields.mapValues f rest) = _
    rw [fieldsOfMembers, first, ih more]
    rfl

theorem ofJson_rendered {v : Value} (h : v.readable) : ofJson v.rendered = .ok v.standard := by
  induction v using childInduction with
  | step v ih =>
    -- fields of different names are written as members, and read back as fields
    have members {fs : Fields Value} (hfs : v.children = fs.map Prod.snd)
        (nodup : (Fields.names fs).Nodup) (inside : ∀ f ∈ fs, f.2.readable) :
        Fields.merge (renderedFields fs) = fs.mapValues rendered ∧
          (fieldsOfMembers (fs.mapValues rendered)).map Fields.merge =
            .ok (fs.mapValues standard) := by
      rw [hfs, List.forall_mem_map] at ih
      constructor
      · rw [renderedFields_eq, Fields.merge_of_nodup (by rwa [Fields.names_mapValues])]
      · rw [fieldsOfMembers_mapValues fun e he => ih e he (inside e he), Except.map,
          Fields.merge_of_nodup (by rwa [Fields.names_mapValues])]
    cases v with
    | map | raw => cases (everywhere_iff.1 h).1
    | document fs =>
      obtain ⟨nodup, unmarked, inside⟩ := readable_document_iff.1 h
      obtain ⟨written, read⟩ := members rfl nodup inside
      obtain ⟨gs, hgs, merged⟩ := Except.map_eq_ok_iff.1 read
      rw [rendered, written, ofJson_of_unmarked (unmarked_iff.1 unmarked), hgs, Except.map, merged,
        standard, standardInFields_eq]
    | array items =>
      have inside := readable_array_iff.1 h
      have each : ∀ w ∈ items, ofJson w.rendered = .ok w.standard :=
        fun w hw => ih w hw (inside w hw)
      rw [rendered, renderedItems_eq, ofJson, valuesOfItems_map each, standard, standardInItems_eq]
      rfl
    | codeWithScope code fs =>
      obtain ⟨nodup, inside⟩ := readable_codeWithScope_iff.1 h
      obtain ⟨written, read⟩ := members rfl nodup inside
      rw [rendered, written, standard, standardInFields_eq]
      show codeInScope code (.fields ((fieldsOfMembers (Fields.mapValues rendered fs)).map _)) = _
      rw [read]
      rfl
    | int32 n => exact ofJson_integerJson n
    | string | null | boolean => rfl
    | _ => exact ofJson_rendered_of_hasMarker rfl

/-! ### nothing is left to decode -/

theorem expandedFields_eq {fs : Fields Value} (h : ∀ f ∈ fs, f.2.expanded = .ok f.2) :
    expandedFields fs = .ok fs := by
  induction fs with
  | nil => rfl
  | cons f rest ih =>
    obtain ⟨first, more⟩ := List.forall_mem_cons.1 h
    rw [expandedFields, first, ih more]
    rfl

theorem expandedItems_eq {items : List Value} (h : ∀ v ∈ items, v.expanded = .ok v) (i : Nat) :
    expandedItems i items = .ok items := by
  induction items generalizing i with
  | nil => rfl
  | cons v rest ih =>
    obtain ⟨first, more⟩ := List.forall_mem_cons.1 h
    rw [expandedItems, first, ih more]
    rfl

theorem expanded_of_readable {v : Value} (h : v.readable) : v.expanded = .ok v := by
  induction v using childInduction with
  | step v ih =>
    cases v with
    | map | raw => cases (everywhere_iff.1 h).1
    | document fs =>
      obtain ⟨-, -, inside⟩ := readable_document_iff.1 h
      rw [expanded, expandedFields_eq fun f hf => ih _ (List.mem_map_of_mem hf) (inside f hf)]
      rfl
    | array items =>
      have inside := readable_array_iff.1 h
      have each : ∀ w ∈ items, w.expanded = .ok w := fun w hw => ih w hw (inside w hw)
      rw [expanded, expandedItems_eq each]
      rfl
    | codeWithScope code fs =>
      obtain ⟨-, inside⟩ := readable_codeWithScope_iff.1 h
      rw [expanded, expandedFields_eq fun f hf => ih _ (List.mem_map_of_mem hf) (inside f hf)]
      rfl
    | _ => rfl

theorem toJson_of_readable {v : Value} (h : v.readable) : v.toJson = .ok v.rendered := by
  rw [toJson, expanded_of_readable h]
  rfl

end Value

end Bson
