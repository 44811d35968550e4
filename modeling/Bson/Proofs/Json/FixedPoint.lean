import Bson.Proofs.Json.Distinct
import Bson.Proofs.Json.Rendered

/-!
# Values that were read from JSON

* `Value.ReadAs`        a member of an object and the field that is read from it
                        (`Value.forall₂_of_members`);
* `Value.readable_ofJson`   what is read from JSON is readable: a document that was no marker is
                        not written as one, although its numbers, texts and markers change form;
* `Value.ofJson_written`, `Value.ofJsonText_written`  so it is written as JSON and read back with
                        every NaN made one, from a JSON value or from a text;
* `Value.Alike`         equality but for the patterns of NaN;
* `Value.ofJson_alike`  reading, writing and reading again gives the same value.
-/

namespace Bson

namespace Value

/-! ### what is read keeps its kind -/

/-- what a marker stands for is written neither as a text nor as an integer -/
theorem rendered_of_hasMarker {v : Value} (h : v.hasMarker) :
    v.rendered.asString? = none ∧ v.rendered.asInt64? = none := by
  cases v with
  | double d =>
    rw [rendered, Double.toJson]
    split <;> exact ⟨rfl, rfl⟩
  | null | boolean | int32 | string | array | document | map | codeWithScope | raw => cases h
  | _ => exact ⟨rfl, rfl⟩

theorem rendered_of_object {members : Fields Json} {v : Value}
    (read : ofJson (.object members) = .ok v) :
    v.rendered.asString? = none ∧ v.rendered.asInt64? = none := by
  rw [ofJson] at read
  split at read
  · rename_i result marker
    rw [read] at marker
    obtain known | ⟨code, fs, rfl, -⟩ := ofMarkers?_eq_ok marker
    · exact rendered_of_hasMarker known
    · exact ⟨rfl, rfl⟩
  · obtain ⟨fs, -, rfl⟩ := Except.map_eq_ok_iff.1 read
    exact ⟨rfl, rfl⟩

theorem asString?_rendered {j : Json} {v : Value} (read : ofJson j = .ok v)
    (h : j.asString? = none) : v.rendered.asString? = none := by
  cases j with
  | object members => exact (rendered_of_object read).1
  | string s => cases h
  | array items =>
    obtain ⟨vs, -, rfl⟩ := Except.map_eq_ok_iff.1 read
    rfl
  | number n =>
    cases read
    rw [numberValue]
    split
    · split
      · rfl
      · exact (rendered_of_hasMarker rfl).1
    · exact (rendered_of_hasMarker rfl).1
  | null | bool =>
    cases read
    rfl

theorem asInt64?_rendered {j : Json} {v : Value} (read : ofJson j = .ok v)
    (h : j.asInt64? = none) : v.rendered.asInt64? = none := by
  cases j with
  | object members => exact (rendered_of_object read).2
  | array items =>
    obtain ⟨vs, -, rfl⟩ := Except.map_eq_ok_iff.1 read
    rfl
  | number n =>
    cases read
    have broken : n.toInt64? = none := h
    rw [numberValue, broken]
    exact (rendered_of_hasMarker rfl).2
  | null | bool | string =>
    cases read
    rfl

/-! ### what is read is readable -/

/-- the field has the name of the member and the value that is read from it -/
def ReadAs (m : String × Json) (f : String × Value) : Prop := f.1 = m.1 ∧ ofJson m.2 = .ok f.2

theorem forall₂_of_members {members : Fields Json} {fs : Fields Value}
    (read : fieldsOfMembers members = .ok fs) : List.Forall₂ ReadAs members fs := by
  induction members generalizing fs with
  | nil =>
    cases read
    exact .nil
  | cons m rest ih =>
    rw [fieldsOfMembers] at read
    obtain ⟨v, first, read⟩ := Except.bind_eq_ok_iff.1 read
    obtain ⟨more, later, same⟩ := Except.bind_eq_ok_iff.1 read
    cases same
    exact .cons ⟨rfl, inField_eq_ok_iff.1 first⟩ (ih later)

theorem names_of_members {members : Fields Json} {fs : Fields Value}
    (read : fieldsOfMembers members = .ok fs) : Fields.names fs = Fields.names members := by
  have pairs := forall₂_of_members read
  clear read
  induction pairs with
  | nil => rfl
  | cons pair _ ih => exact congrArg₂ List.cons pair.1 ih

theorem get?_of_members {members : Fields Json} {fs : Fields Value} {name : String} {v : Value}
    (read : fieldsOfMembers members = .ok fs) (found : Fields.get? name fs = some v) :
    ∃ j, Fields.get? name members = some j ∧ ofJson j = .ok v := by
  have pairs := forall₂_of_members read
  clear read
  induction pairs with
  | nil => cases found
  | cons pair _ ih =>
    obtain ⟨named, value⟩ := pair
    rw [Fields.get?, named] at found
    rw [Fields.get?]
    split at found
    · rename_i here
      cases found
      exact ⟨_, if_pos here, value⟩
    · rename_i other
      rw [if_neg other]
      exact ih found

theorem unmarked_of_members {members : Fields Json} {fs : Fields Value}
    (read : fieldsOfMembers members = .ok fs) (h : Unmarked members) : unmarked fs := by
  have kept {α : Type} {kind : Json → Option α} {name : String}
      (back : ∀ {j : Json} {v : Value}, ofJson j = .ok v → kind j = none → kind v.rendered = none)
      (other : (Fields.get? name members).bind kind = none) :
      (Fields.get? name (fs.mapValues rendered)).bind kind = none := by
    rw [Fields.get?_mapValues]
    cases found : Fields.get? name fs with
    | none => rfl
    | some v =>
      obtain ⟨j, behind, value⟩ := get?_of_members read found
      rw [behind] at other
      exact back value other
  refine unmarked_iff.2 ⟨fun name there => ?_, fun name there => ?_, fun name there => ?_⟩
  · exact kept asString?_rendered (h.text name there)
  · exact kept asInt64?_rendered (h.integer name there)
  · have missing := Fields.get?_eq_none_iff.1 (h.bare name there)
    rwa [Fields.get?_eq_none_iff, Fields.names_mapValues, names_of_members read]

theorem readable_of_hasMarker {v : Value} (h : v.hasMarker) : v.readable := by
  cases v with
  | null | boolean | int32 | string | array | document | map | codeWithScope | raw => cases h
  | _ => rfl

mutual

theorem readable_ofJson : ∀ (j : Json) {v : Value}, j.distinct → ofJson j = .ok v → v.readable
  | .object members, v, distinct, read => by
    rw [Json.distinct, Bool.and_eq_true] at distinct
    have nodup := of_decide_eq_true distinct.1
    rw [ofJson] at read
    split at read
    · rename_i result marker
      rw [read] at marker
      obtain known | ⟨code, fs, rfl, scope⟩ := ofMarkers?_eq_ok marker
      · exact readable_of_hasMarker known
      · obtain ⟨names, inside⟩ := readable_scopeOfMembers members distinct.2 scope
        exact readable_codeWithScope_iff.2 ⟨names, inside⟩
    · rename_i none
      obtain ⟨fs, hfs, rfl⟩ := Except.map_eq_ok_iff.1 read
      have inside := readable_fieldsOfMembers members distinct.2 hfs
      rw [← names_of_members hfs] at nodup
      have unmarked := unmarked_of_members hfs (ofMarkers?_eq_none_iff.1 none)
      rw [Fields.merge_of_nodup nodup]
      exact readable_document_iff.2 ⟨nodup, unmarked, inside⟩
  | .array items, v, distinct, read => by
    obtain ⟨vs, hvs, rfl⟩ := Except.map_eq_ok_iff.1 read
    exact readable_array_iff.2 (readable_valuesOfItems items distinct hvs)
  | .number n, _, _, read => by
    cases read
    rw [numberValue]
    split
    · split <;> rfl
    · rfl
  | .null, _, _, read | .bool _, _, _, read | .string _, _, _, read => by
    cases read
    rfl

theorem readable_valuesOfItems : ∀ (items : List Json) {i : Nat} {vs : List Value},
    Json.distinctItems items → valuesOfItems i items = .ok vs → ∀ v ∈ vs, v.readable
  | [], _, _, _, read => by
    cases read
    exact nofun
  | j :: rest, i, vs, distinct, read => by
    rw [Json.distinctItems, Bool.and_eq_true] at distinct
    rw [valuesOfItems] at read
    obtain ⟨v, first, read⟩ := Except.bind_eq_ok_iff.1 read
    obtain ⟨more, later, same⟩ := Except.bind_eq_ok_iff.1 read
    cases same
    exact List.forall_mem_cons.2 ⟨readable_ofJson j distinct.1 (inField_eq_ok_iff.1 first),
      readable_valuesOfItems rest distinct.2 later⟩

theorem readable_fieldsOfMembers : ∀ (members : List (String × Json)) {fs : Fields Value},
    Json.distinctMembers members → fieldsOfMembers members = .ok fs → ∀ f ∈ fs, f.2.readable
  | [], _, _, read => by
    cases read
    exact nofun
  | (name, j) :: rest, fs, distinct, read => by
    rw [Json.distinctMembers, Bool.and_eq_true] at distinct
    rw [fieldsOfMembers] at read
    obtain ⟨v, first, read⟩ := Except.bind_eq_ok_iff.1 read
    obtain ⟨more, later, same⟩ := Except.bind_eq_ok_iff.1 read
    cases same
    exact List.forall_mem_cons.2 ⟨readable_ofJson j distinct.1 (inField_eq_ok_iff.1 first),
      readable_fieldsOfMembers rest distinct.2 later⟩

theorem readable_scopeOfMembers : ∀ (members : List (String × Json)) {fs : Fields Value},
    Json.distinctMembers members → scopeOfMembers members = .fields (.ok fs) →
      (Fields.names fs).Nodup ∧ ∀ f ∈ fs, f.2.readable
  | [], _, _, read => by cases read
  | (name, j) :: rest, fs, distinct, read => by
    rw [Json.distinctMembers, Bool.and_eq_true] at distinct
    rw [scopeOfMembers.eq_def] at read
    simp only at read
    split at read
    · split at read
      · rename_i members
        injection read with read
        obtain ⟨gs, hgs, rfl⟩ := Except.map_eq_ok_iff.1 read
        rw [Json.distinct, Bool.and_eq_true] at distinct
        have inside := readable_fieldsOfMembers members distinct.1.2 hgs
        exact ⟨Fields.nodup_merge gs, fun f hf => inside f (Fields.mem_merge hf)⟩
      · cases read
    · exact readable_scopeOfMembers rest distinct.2 read

end

/-! ### reading, writing and reading again -/

theorem ofJson_written {j : Json} {v : Value} (distinct : j.distinct) (read : ofJson j = .ok v) :
    ∃ j', v.toJson = .ok j' ∧ ofJson j' = .ok v.standard :=
  have readable := readable_ofJson j distinct read
  ⟨v.rendered, toJson_of_readable readable, ofJson_rendered readable⟩

/-- the same of what is read from a text, whose objects have merged their repeated names -/
theorem ofJsonText_written {text : String} {v : Value} (read : ofJsonText text = .ok v) :
    ∃ j, v.toJson = .ok j ∧ ofJson j = .ok v.standard := by
  rw [ofJsonText] at read
  split at read
  · rename_i found
    exact ofJson_written (Json.distinct_of_read? found) read
  · cases read

/-- equality where two doubles count as equal if their bits agree or both are NaN
(`Double.standard_eq_iff`) -/
def Alike (v w : Value) : Prop := v.standard = w.standard

/-- **Reading JSON reaches a fixed point**: what is read from a JSON value, whatever markers or halves
of markers its objects have, is written as JSON again, and what is read from that is the same value,
but for the patterns of NaN. -/
theorem ofJson_alike {j : Json} {v : Value} (distinct : j.distinct) (read : ofJson j = .ok v) :
    ∃ j' w, v.toJson = .ok j' ∧ ofJson j' = .ok w ∧ w.Alike v := by
  obtain ⟨j', written, again⟩ := ofJson_written distinct read
  exact ⟨j', v.standard, written, again, standard_standard v⟩

/-- markers with values of another kind, a marker inside one, a scope with a marker, and a NaN -/
theorem ofJson_alike_half_markers :
    let j : Json := .object [("$oid", .number (.natural 5)), ("$options", .string "i"),
      ("$date", .object [("$numberLong", .string "+07")]),
      ("$code", .object [("$code", .string "f"), ("$scope", .object [("$minKey", .string "x")])]),
      ("items", .array [.object [("$numberDouble", .string "-nan")],
        .object [("$regex", .string "a")], .number (.float ⟨0x4000000000000000⟩)])]
    let v : Value := .document [("$oid", .int32 5), ("$options", .string "i"),
      ("$date", .int64 7), ("$code", .codeWithScope "f" [("$minKey", .string "x")]),
      ("items", .array [.double ⟨0xfff8000000000000⟩, .regex ⟨"a", ""⟩,
        .double ⟨0x4000000000000000⟩])]
    j.distinct ∧ ofJson j = .ok v ∧
      ∃ j' w, v.toJson = .ok j' ∧ ofJson j' = .ok w ∧ w.Alike v := by
  intro j v
  have distinct : j.distinct := by decide
  have read : ofJson j = .ok v := by rfl
  exact ⟨distinct, read, ofJson_alike distinct read⟩

end Value

end Bson
