import Bson.Host.Projection
import Bson.Proofs.Fields.Merged
import Bson.Proofs.Shape.Reordering
import Bson.Proofs.Text.Hex
import Bson.Proofs.Value.Frames

/-!
# Values that pass through host records

* `Value.merged`        a value with the repeated names of documents and scopes merged;
* `Value.ordered`, `Value.distinct`  whether maps are in order, and whether names are repeated;
* `toValue_wrapped`     what stands behind a reserved name is rebuilt from the value it wraps;
* `Value.toValue_toHost`  so a value given as a host record comes back merged, and one without
                        repeated names as it was.
-/

namespace Bson

theorem Reserved.isReserved_name (r : Reserved) : isReserved r.name := by
  rw [isReserved, name, String.toList_append]
  exact List.isPrefixOf_iff_prefix.2 (List.prefix_append _ _)

theorem toValue_wrapped {r : Reserved} {inner : Host} {v : Value} (h : inner.toValue = .ok v) :
    (wrapped r inner).toValue = rebuild r.name v := by
  rw [wrapped, Host.toValue, if_pos r.isReserved_name, h]
  rfl

theorem toValue_pair {first second : Host} {v w : Value} (h : first.toValue = .ok v)
    (h' : second.toValue = .ok w) : (Host.tuple [first, second]).toValue = .ok (.array [v, w]) := by
  rw [Host.toValue, itemValues, itemValues, h, h']
  rfl

theorem ObjectId.toValue_hex (id : ObjectId) : id.toHost.toValue = .ok (.objectId id) := by
  rw [toHost, toValue_wrapped (v := .string id.hex) rfl]
  show (ObjectId.locatedHex id.hex).map _ = _
  rw [locatedHex_hex]
  rfl

/-! ### containers -/

section

variable {α : Type} {f g : α → Value}

theorem itemValues_hostItems {items : List α} (h : ∀ a ∈ items, (f a).toHost.toValue = .ok (g a))
    (i : Nat) : itemValues i (hostItems (items.map f)) = .ok (items.map g) := by
  induction items generalizing i with
  | nil => rfl
  | cons a items ih =>
    obtain ⟨first, more⟩ := List.forall_mem_cons.1 h
    rw [List.map_cons, hostItems, itemValues, first, ih more]
    rfl

theorem entryValues_entriesOfFields {fs : Fields α}
    (h : ∀ e ∈ fs, (f e.2).toHost.toValue = .ok (g e.2)) :
    entryValues (entriesOfFields (fs.mapValues f)) = .ok (fs.mapValues g) := by
  induction fs with
  | nil => rfl
  | cons e fs ih =>
    obtain ⟨first, more⟩ := List.forall_mem_cons.1 h
    show entryValues (entriesOfFields ((e.1, f e.2) :: Fields.mapValues f fs)) = _
    rw [entriesOfFields, entryValues, first, ih more]
    rfl

theorem toValue_entries {fs : Fields α} (h : ∀ e ∈ fs, (f e.2).toHost.toValue = .ok (g e.2)) :
    (Host.map (entriesOfFields (fs.mapValues f))).toValue =
      .ok (.document (Fields.lastAtFirst (fs.mapValues g))) := by
  rw [Host.toValue, entryValues_entriesOfFields h, ← Fields.merge_eq]
  rfl

end

mutual

/-- repeated names merged in documents and scopes, from the inside out -/
def Value.merged : Value → Value
  | .document fs => .document (Fields.lastAtFirst (mergedInFields fs))
  | .map fs => .map (mergedInFields fs)
  | .array items => .array (mergedInItems items)
  | .codeWithScope code scope => .codeWithScope code (Fields.lastAtFirst (mergedInFields scope))
  | v => v

def Value.mergedInFields : List (String × Value) → List (String × Value)
  | [] => []
  | (name, v) :: rest => (name, v.merged) :: mergedInFields rest

def Value.mergedInItems : List Value → List Value
  | [] => []
  | v :: rest => v.merged :: mergedInItems rest

end

namespace Value

/-- whether the fields of maps stand in the order of their names, as those of a map do -/
def ordered : Value → Bool :=
  everywhere fun
    | map fs => decide (Fields.Sorted fs)
    | _ => true

/-- whether no document and no scope repeats a name -/
def distinct : Value → Bool :=
  everywhere fun
    | document fs | codeWithScope _ fs => decide (Fields.names fs).Nodup
    | _ => true

theorem mergedInFields_eq (fs : Fields Value) : mergedInFields fs = fs.mapValues merged := by
  induction fs with
  | nil => rfl
  | cons f rest ih =>
    rw [mergedInFields, ih]
    rfl

theorem mergedInItems_eq (items : List Value) : mergedInItems items = items.map merged := by
  induction items with
  | nil => rfl
  | cons v rest ih => rw [mergedInItems, ih, List.map_cons]

theorem merged_document (fs : Fields Value) :
    (document fs).merged = document (Fields.lastAtFirst (fs.mapValues merged)) := by
  rw [merged, mergedInFields_eq]

theorem merged_map (fs : Fields Value) : (map fs).merged = map (fs.mapValues merged) := by
  rw [merged, mergedInFields_eq]

theorem merged_array (items : List Value) : (array items).merged = array (items.map merged) := by
  rw [merged, mergedInItems_eq]

theorem merged_codeWithScope (code : String) (scope : Fields Value) :
    (codeWithScope code scope).merged =
      codeWithScope code (Fields.lastAtFirst (scope.mapValues merged)) := by
  rw [merged, mergedInFields_eq]

theorem merged_of_scalar {v : Value} (h : v.elementType.isContainer = false) : v.merged = v := by
  cases v <;> first | rfl | cases h

theorem merged_of_distinct {v : Value} (h : v.distinct) : v.merged = v := by
  induction v using childInduction with
  | step v ih =>
    obtain ⟨here, inside⟩ := everywhere_iff.1 h
    have fields {fs : Fields Value} (hfs : v.children = fs.map Prod.snd) :
        fs.mapValues merged = fs := by
      rw [hfs, List.forall_mem_map] at ih inside
      have same : fs.mapValues merged = fs.mapValues id :=
        Fields.mapValues_congr fun f hf => ih f hf (inside f hf)
      rw [same, Fields.mapValues_id]
    have once {fs : Fields Value} (names : decide (Fields.names fs).Nodup) :
        Fields.lastAtFirst fs = fs := by
      rw [← Fields.merge_eq]
      exact Fields.merge_of_nodup (of_decide_eq_true names)
    cases v with
    | document fs => rw [merged_document, fields rfl, once here]
    | map fs => rw [merged_map, fields rfl]
    | array items =>
      have same : items.map merged = items.map id :=
        List.map_congr_left fun w hw => ih w hw (inside w hw)
      rw [merged_array, same, List.map_id]
    | codeWithScope code scope => rw [merged_codeWithScope, fields rfl, once here]
    | _ => rfl

/-! ### through a host record and back -/

theorem toValue_toHost_of_scalar {v : Value} (h : v.elementType.isContainer = false) :
    v.toHost.toValue = .ok v := by
  cases v with
  | document | map | array | codeWithScope | raw => cases h
  | objectId id => exact id.toValue_hex
  | dbPointer p =>
    rw [toHost, toValue_wrapped (toValue_pair rfl p.id.toValue_hex)]
    rfl
  | _ => rfl

theorem toValue_toHost_raw {doc : RawDocument} (framed : doc.Framed) :
    (raw doc).toHost.toValue = .ok (raw doc) := by
  rw [toHost, toValue_wrapped (v := .binary doc.bytes) rfl]
  show (RawDocument.ofBytes doc.bytes).map _ = _
  rw [RawDocument.ofBytes_eq_ok_iff.2 ⟨rfl, framed⟩]
  rfl

/-- fields of different names come back as a map from every order in which they are walked -/
theorem toValue_toHost_map {α : Type} {f g : α → Value} {fs : Fields α} {gs : Fields Value}
    (h : ∀ e ∈ fs, (f e.2).toHost.toValue = .ok (g e.2)) (sorted : Fields.Sorted fs)
    (order : gs.Perm (fs.mapValues f)) :
    (map gs).toHost.toValue = .ok (map (fs.mapValues g)) := by
  obtain ⟨hs, moved, rfl⟩ := Fields.exists_perm_mapValues order
  have ordered : Fields.Sorted (fs.mapValues g) := List.pairwise_map.2 sorted
  have walked : (hs.mapValues g).Perm (fs.mapValues g) := moved.map _
  have distinct : (Fields.names (hs.mapValues g)).Nodup :=
    (walked.map Prod.fst).nodup_iff.2 ordered.nodup
  rw [toHost, toValue_wrapped (toValue_entries fun e he => h e (moved.mem_iff.1 he)),
    ← Fields.merge_eq, Fields.merge_of_nodup distinct]
  show Except.ok (Value.map (Fields.sorted _)) = _
  rw [Fields.sorted_eq_of_perm ordered walked]

/-- **Values pass through host records**: a value whose unread bytes are framed comes back from the
host record that it is given as, whatever the order in which its maps are walked, with repeated
names merged in its documents and scopes. Where no name is repeated it comes back as it was. -/
theorem toValue_toHost {v w : Value} (framed : v.framed) (ordered : v.ordered)
    (walked : v.Reorders w) :
    w.toHost.toValue = .ok v.merged ∧ (v.distinct → v.merged = v) := by
  refine ⟨?_, merged_of_distinct⟩
  -- the fields of a container, before and after they are walked in another order
  have fields {fs : Fields (Value × Value)} {v : Value}
      (hv : v.children = (fs.mapValues Prod.fst).map Prod.snd) (framed : v.framed)
      (ordered : v.ordered)
      (ih : ∀ f ∈ fs, f.2.1.framed → f.2.1.ordered → f.2.2.toHost.toValue = .ok f.2.1.merged) :
      ∀ f ∈ fs, (Prod.snd f.2).toHost.toValue = .ok ((merged ∘ Prod.fst) f.2) := by
    have framedInside := (everywhere_iff.1 framed).2
    have orderedInside := (everywhere_iff.1 ordered).2
    rw [hv, Fields.values_mapValues, List.forall_mem_map] at framedInside orderedInside
    exact fun f hf => ih f hf (framedInside f hf) (orderedInside f hf)
  induction walked with
  | scalar scalar => rw [merged_of_scalar scalar, toValue_toHost_of_scalar scalar]
  | raw => exact toValue_toHost_raw (framed_raw_iff.1 framed)
  | document _ ih =>
    rw [toHost, toValue_entries (fields rfl framed ordered ih), merged_document,
      Fields.mapValues_mapValues]
  | map _ order ih =>
    have sorted := of_decide_eq_true (everywhere_iff.1 ordered).1
    rw [toValue_toHost_map (fields rfl framed ordered ih) (List.pairwise_map.1 sorted) order,
      merged_map, Fields.mapValues_mapValues]
  | codeWithScope _ ih =>
    rw [toHost, toValue_wrapped (toValue_pair rfl (toValue_entries (fields rfl framed ordered ih))),
      merged_codeWithScope, Fields.mapValues_mapValues]
    rfl
  | array _ ih =>
    have framedInside := List.forall_mem_map.1 (everywhere_iff.1 framed).2
    have orderedInside := List.forall_mem_map.1 (everywhere_iff.1 ordered).2
    have items := itemValues_hostItems
      (fun p hp => ih p hp (framedInside p hp) (orderedInside p hp)) 0
    rw [toHost, Host.toValue, items, merged_array, List.map_map]
    rfl

/-- a map walked against its order, and a document and a scope that repeat a name -/
theorem toValue_toHost_repeated :
    let pointer : Value := .dbPointer ⟨"c", .zero⟩
    let m : Value := .map [("x", pointer), ("y", .raw ⟨[5, 0, 0, 0, 0]⟩)]
    let walked : Value := .map [("y", .raw ⟨[5, 0, 0, 0, 0]⟩), ("x", pointer)]
    let v : Value := .document [("a", m), ("b", .codeWithScope "f" [("s", .null), ("s", .minKey)]),
      ("a", .null)]
    walked.toHost.toValue = .ok m ∧ v.toHost.toValue =
      .ok (.document [("a", .null), ("b", .codeWithScope "f" [("s", .minKey)])]) := by
  intro pointer m walked v
  have reversed : m.Reorders walked := .of_perm (.swap ..)
  have back := toValue_toHost (v := m) (by decide) (by decide) reversed
  have merged := toValue_toHost (v := v) (by decide) (by decide) (.refl v)
  refine ⟨?_, merged.1⟩
  rw [back.1, back.2 (by decide)]

end Value

end Bson
