import Bson.Host.Projection
import Bson.Proofs.Fields.Merged
import Bson.Proofs.Result
import Bson.Proofs.Value.Frames

/-!
# What host records become

Bytes of a host record are taken as a document only behind the reserved name, where they are checked
(`framed_of_rebuild`). So all bytes that were not read, anywhere in the value of a host record, have
the frame of a document (`Host.framed_toValue`).
-/

namespace Bson

open Value

theorem framed_of_rebuild {name : String} {inner v : Value} (framed : inner.framed)
    (built : rebuild name inner = .ok v) : v.framed := by
  unfold rebuild at built
  split at built
  case h_1 =>
    obtain ⟨id, -, rfl⟩ := Except.map_eq_ok_iff.1 built
    rfl
  case h_2 | h_3 | h_4 | h_5 =>
    cases built
    rfl
  case h_6 | h_7 =>
    split at built <;> cases built
    rfl
  case h_8 =>
    split at built <;> cases built
    have scope := framed_of_child framed (.tail _ (.head _))
    exact everywhere_iff.2 ⟨rfl, fun w child => framed_of_child scope child⟩
  case h_9 =>
    cases built
    refine everywhere_iff.2 ⟨rfl, List.forall_mem_map.2 fun f hf => ?_⟩
    exact framed_of_child framed (List.mem_map_of_mem (Fields.mem_sorted hf))
  case h_10 =>
    obtain ⟨doc, checked, rfl⟩ := Except.map_eq_ok_iff.1 built
    exact framed_raw_iff.2 (RawDocument.ofBytes_eq_ok_iff.1 checked).2
  case h_11 => cases built

theorem framed_merge {fs : Fields Value} (h : ∀ f ∈ fs, f.2.framed) :
    (document (Fields.merge fs)).framed :=
  everywhere_iff.2 ⟨rfl, List.forall_mem_map.2 fun f hf => h f (Fields.mem_merge hf)⟩

theorem framed_variantValue {variant : String} {v : Value} (h : v.framed) :
    (variantValue variant v).framed :=
  everywhere_iff.2 ⟨rfl, List.forall_mem_singleton.2 h⟩

theorem framed_array {items : List Value} (h : ∀ v ∈ items, v.framed) : (array items).framed :=
  everywhere_iff.2 ⟨rfl, h⟩

mutual

theorem Host.framed_toValue : ∀ (h : Host) {v : Value}, h.toValue = .ok v → v.framed
  | .some inner, _, read => inner.framed_toValue read
  | .named name inner, _, read => by
    rw [Host.toValue] at read
    split at read
    · obtain ⟨v, hv, built⟩ := Except.bind_eq_ok_iff.1 read
      exact framed_of_rebuild (inner.framed_toValue hv) built
    · exact inner.framed_toValue read
  | .valueVariant variant inner, _, read => by
    obtain ⟨v, hv, rfl⟩ := Except.map_eq_ok_iff.1 read
    exact framed_variantValue (inner.framed_toValue (inField_eq_ok_iff.1 hv))
  | .sequence items, _, read | .tuple items, _, read | .namedTuple _ items, _, read => by
    obtain ⟨vs, hvs, rfl⟩ := Except.map_eq_ok_iff.1 read
    exact framed_array (framed_itemValues items hvs)
  | .tupleVariant variant items, _, read => by
    obtain ⟨vs, hvs, rfl⟩ := Except.map_eq_ok_iff.1 read
    exact framed_variantValue (framed_array (framed_itemValues items (inField_eq_ok_iff.1 hvs)))
  | .map entries, _, read => by
    obtain ⟨fs, hfs, rfl⟩ := Except.map_eq_ok_iff.1 read
    exact framed_merge (framed_entryValues entries hfs)
  | .record _ fields, _, read => by
    obtain ⟨fs, hfs, rfl⟩ := Except.map_eq_ok_iff.1 read
    exact framed_merge (framed_fieldValues fields hfs)
  | .recordVariant variant fields, _, read => by
    obtain ⟨fs, hfs, rfl⟩ := Except.map_eq_ok_iff.1 read
    exact framed_variantValue (framed_merge (framed_fieldValues fields (inField_eq_ok_iff.1 hfs)))
  | .uint64 n, _, read => by
    rw [Host.toValue, naturalValue] at read
    split at read <;> cases read
    rfl
  | .namedUnit name, _, read => by
    cases read
    unfold unitValue
    split <;> rfl
  | .bool _, _, read | .int8 _, _, read | .int16 _, _, read | .int32 _, _, read
  | .int64 _, _, read | .uint8 _, _, read | .uint16 _, _, read | .uint32 _, _, read
  | .float64 _, _, read | .char _, _, read | .string _, _, read | .bytes _, _, read
  | .none, _, read | .unit, _, read | .unitVariant _, _, read => by
    cases read
    rfl
  | .int128 _, _, read | .uint128 _, _, read | .float32 _, _, read | .failure _, _, read
  | .valueBeforeKey _, _, read => by cases read

theorem framed_itemValues : ∀ (items : List Host) {i : Nat} {vs : List Value},
    itemValues i items = .ok vs → ∀ v ∈ vs, v.framed
  | [], _, _, read => by
    cases read
    exact nofun
  | h :: rest, i, vs, read => by
    rw [itemValues] at read
    obtain ⟨v, hv, read⟩ := Except.bind_eq_ok_iff.1 read
    obtain ⟨more, hmore, same⟩ := Except.bind_eq_ok_iff.1 read
    cases same
    exact List.forall_mem_cons.2
      ⟨h.framed_toValue (inField_eq_ok_iff.1 hv), framed_itemValues rest hmore⟩

theorem framed_entryValues : ∀ (entries : List (Host × Host)) {fs : Fields Value},
    entryValues entries = .ok fs → ∀ f ∈ fs, f.2.framed
  | [], _, read => by
    cases read
    exact nofun
  | (key, h) :: rest, fs, read => by
    rw [entryValues] at read
    obtain ⟨k, -, read⟩ := Except.bind_eq_ok_iff.1 read
    obtain ⟨name, -, read⟩ := Except.bind_eq_ok_iff.1 read
    obtain ⟨v, hv, read⟩ := Except.bind_eq_ok_iff.1 read
    obtain ⟨more, hmore, same⟩ := Except.bind_eq_ok_iff.1 read
    cases same
    exact List.forall_mem_cons.2
      ⟨h.framed_toValue (inField_eq_ok_iff.1 hv), framed_entryValues rest hmore⟩

theorem framed_fieldValues : ∀ (fields : List (String × Host)) {fs : Fields Value},
    fieldValues fields = .ok fs → ∀ f ∈ fs, f.2.framed
  | [], _, read => by
    cases read
    exact nofun
  | (name, h) :: rest, fs, read => by
    rw [fieldValues] at read
    obtain ⟨v, hv, read⟩ := Except.bind_eq_ok_iff.1 read
    obtain ⟨more, hmore, same⟩ := Except.bind_eq_ok_iff.1 read
    cases same
    exact List.forall_mem_cons.2
      ⟨h.framed_toValue (inField_eq_ok_iff.1 hv), framed_fieldValues rest hmore⟩

end

end Bson
