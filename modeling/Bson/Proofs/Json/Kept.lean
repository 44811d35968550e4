import Bson.Proofs.Json.FixedPoint

/-!
# Members that are lost beside a marker

An object with a marker is the value that the marker stands for, whatever other members it has.

* `Marker.kept`         the members that a marker has a use for: its own, and `$options` behind
                        `$regex` and `$scope` behind `$code`;
* `ofJson_kept`         the other members do not matter to the value of the object;
* `ReadWhole`           no member is lost: the value has one field for each, or they are those of
                        one marker;
* `ofJson_object`       no member is lost exactly if the marker that decides, where there is one,
                        has a use for each.
-/

namespace Bson

theorem Fields.get?_filter {α : Type} {p : String → Bool} {name : String} (used : p name)
    (fs : Fields α) : get? name (fs.filter fun f => p f.1) = get? name fs := by
  induction fs with
  | nil => rfl
  | cons f rest ih =>
    rw [List.filter_cons, get?]
    by_cases same : f.1 = name
    · rw [if_pos (same ▸ used), if_pos same]
      exact if_pos same
    · rw [if_neg same]
      by_cases stays : p f.1
      · rw [if_pos stays, get?, if_neg same, ih]
      · rw [if_neg stays, ih]

theorem scopeOfMembers_eq (members : Fields Json) :
    scopeOfMembers members =
      match Fields.get? "$scope" members with
      | none => .absent
      | some (.object scope) => .fields ((fieldsOfMembers scope).map Fields.merge)
      | some _ => .noObject := by
  induction members with
  | nil => rfl
  | cons m rest ih =>
    obtain ⟨name, j⟩ := m
    rw [scopeOfMembers.eq_def, Fields.get?]
    simp only
    by_cases here : name = "$scope"
    · rw [if_pos here, if_pos here]
      cases j <;> rfl
    · rw [if_neg here, if_neg here, ih]

namespace Marker

/-- the name that may stand beside it -/
def partner? : Marker → Option String
  | regex => some "$options"
  | code => some "$scope"
  | _ => none

/-- whether a member of this name has a part in what the marker stands for -/
def uses (marker : Marker) (name : String) : Bool :=
  name = marker.name || marker.partner? = some name

/-- the members that it has a use for -/
def kept (marker : Marker) (members : Fields Json) : Fields Json :=
  members.filter fun m => marker.uses m.1

variable {marker other : Marker} {members : Fields Json}

theorem uses_name (marker other : Marker) : marker.uses other.name = decide (other = marker) := by
  cases marker <;> cases other <;> rfl

theorem uses_own (marker : Marker) : marker.uses marker.name := by
  rw [uses_name, decide_eq_true rfl]

theorem first?_eq_none_iff : first? members = none ↔ Unmarked members := by
  rw [← @ofMarkers?_eq_none_iff members fun _ => .absent, ofMarkers?_eq_findSome?,
    List.findSome?_eq_none_iff, first?, List.find?_eq_none]
  simp only [stands, Option.not_isSome_iff_eq_none]

/-! ### the members that it has a use for -/

theorem get?_kept {name : String} (used : marker.uses name) :
    Fields.get? name (marker.kept members) = Fields.get? name members :=
  Fields.get?_filter used members

/-- a marker stands for the same without the members that it has no use for -/
theorem meaning?_kept (marker : Marker) (members : Fields Json) :
    marker.meaning? (marker.kept members) (fun _ => scopeOfMembers (marker.kept members)) =
      marker.meaning? members (fun _ => scopeOfMembers members) := by
  have own : Fields.get? marker.name (marker.kept members) = Fields.get? marker.name members :=
    get?_kept marker.uses_own
  cases marker with
  | regex =>
    have options : Fields.get? "$options" (kept regex members) = Fields.get? "$options" members :=
      get?_kept rfl
    rw [meaning?, meaning?, own, options]
  | code =>
    have scope : Fields.get? "$scope" (kept code members) = Fields.get? "$scope" members :=
      get?_kept rfl
    rw [meaning?, meaning?, own, scopeOfMembers_eq, scopeOfMembers_eq, scope]
  | _ => rw [meaning?, meaning?, own]

theorem mem_names_of_stands (stands : marker.stands members) :
    marker.name ∈ Fields.names members := by
  by_contra missing
  have missing := Fields.get?_eq_none_iff.2 missing
  have absent : marker.meaning? members (fun _ => .absent) = none := by
    cases marker <;> rw [meaning?, missing] <;> rfl
  rw [Marker.stands, absent] at stands
  cases stands

theorem mem_names_kept {name : String} :
    name ∈ Fields.names (marker.kept members) ↔
      name ∈ Fields.names members ∧ marker.uses name := by
  simp only [Fields.names, kept, List.mem_map, List.mem_filter]
  constructor
  · rintro ⟨m, ⟨there, used⟩, rfl⟩
    exact ⟨⟨m, there, rfl⟩, used⟩
  · rintro ⟨⟨m, there, rfl⟩, used⟩
    exact ⟨m, ⟨there, used⟩, rfl⟩

/-- among the members that a marker has a use for, no other marker stands -/
theorem stands_kept (stands : other.stands (marker.kept members)) : other = marker := by
  obtain ⟨-, used⟩ := mem_names_kept.1 (mem_names_of_stands stands)
  rwa [uses_name, decide_eq_true_eq] at used

theorem first?_kept (decides : first? members = some marker) :
    first? (marker.kept members) = some marker := by
  obtain ⟨stands, before, after, split, earlier⟩ := List.find?_eq_some_iff_append.1 decides
  refine List.find?_eq_some_iff_append.2 ⟨?_, before, after, split, fun other there => ?_⟩
  · rwa [← isSome_meaning? _ fun _ => scopeOfMembers (marker.kept members), meaning?_kept,
      isSome_meaning?]
  · -- a marker that stands among these members is this one, and no earlier one is
    rw [Bool.not_eq_true', ← Bool.not_eq_true]
    intro again
    have same := stands_kept again
    have := earlier other there
    rw [same, stands] at this
    cases this

end Marker

/-! ### what is lost -/

/-- no member is lost: the value is a document with one field for each member, in their order, or
the members are those of one marker -/
def ReadWhole (members : Fields Json) (v : Value) : Prop :=
  (∃ fs, v = .document fs ∧ List.Forall₂ Value.ReadAs members fs) ∨
    ∃ marker : Marker, marker.name ∈ Fields.names members ∧
      ∀ name ∈ Fields.names members, marker.uses name

variable {members : Fields Json} {v : Value} {marker : Marker}

theorem ofJson_of_first? (decides : Marker.first? members = some marker) :
    some (Value.ofJson (.object members)) =
      marker.meaning? members fun _ => scopeOfMembers members := by
  have found := Marker.ofMarkers?_eq members fun _ => scopeOfMembers members
  rw [decides, Option.bind_some] at found
  have stands : (marker.meaning? members fun _ => scopeOfMembers members).isSome := by
    rw [Marker.isSome_meaning?]
    exact List.find?_some decides
  obtain ⟨result, meaning⟩ := Option.isSome_iff_exists.1 stands
  rw [meaning] at found ⊢
  rw [Value.ofJson_of_markers found]

/-- the members that the marker has no use for do not matter, to a value or to an error -/
theorem ofJson_kept (decides : Marker.first? members = some marker) :
    Value.ofJson (.object (marker.kept members)) = Value.ofJson (.object members) := by
  apply Option.some.inj
  rw [ofJson_of_first? (Marker.first?_kept decides), Marker.meaning?_kept,
    ofJson_of_first? decides]

theorem not_document_of_marked (decides : Marker.first? members = some marker)
    (read : Value.ofJson (.object members) = .ok v) (fs : Fields Value) : v ≠ .document fs := by
  rintro rfl
  have found := Marker.ofMarkers?_eq members fun _ => scopeOfMembers members
  rw [decides, Option.bind_some, ← ofJson_of_first? decides, read] at found
  rcases ofMarkers?_eq_ok found with marked | ⟨_, _, behind, -⟩
  · cases marked
  · cases behind

theorem document_of_first?_eq_none (distinct : (Fields.names members).Nodup)
    (unmarked : Marker.first? members = none) (read : Value.ofJson (.object members) = .ok v) :
    ∃ fs, v = .document fs ∧ List.Forall₂ Value.ReadAs members fs := by
  rw [Value.ofJson_of_unmarked (Marker.first?_eq_none_iff.1 unmarked)] at read
  obtain ⟨fs, inside, rfl⟩ := Except.map_eq_ok_iff.1 read
  rw [← Value.names_of_members inside] at distinct
  exact ⟨fs, congrArg Value.document (Fields.merge_of_nodup distinct),
    Value.forall₂_of_members inside⟩

/-- if the members are those of one marker, it is the one that decides -/
theorem first?_eq_of_uses {first : Marker} (decides : Marker.first? members = some first)
    (used : ∀ name ∈ Fields.names members, marker.uses name) : first = marker := by
  have there := Marker.mem_names_of_stands (List.find?_some decides)
  have same := used _ there
  rwa [Marker.uses_name, decide_eq_true_eq] at same

/-- **What is lost in reading an object**: an object whose members have different names, and none of
them a marker that stands, is read as a document with one field for each. Otherwise the first marker
decides: the value is no document, and it is the value of the object with nothing but the members
that the marker has a use for. So no member is lost exactly if it has a use for each of them. -/
theorem ofJson_object (distinct : (Fields.names members).Nodup)
    (read : Value.ofJson (.object members) = .ok v) :
    (Marker.first? members = none →
      ∃ fs, v = .document fs ∧ List.Forall₂ Value.ReadAs members fs) ∧
    (∀ marker, Marker.first? members = some marker →
      (∀ fs, v ≠ .document fs) ∧ Value.ofJson (.object (marker.kept members)) = .ok v) ∧
    (ReadWhole members v ↔ ∀ marker, Marker.first? members = some marker →
      ∀ name ∈ Fields.names members, marker.uses name) := by
  refine ⟨fun unmarked => document_of_first?_eq_none distinct unmarked read, fun marker decides =>
    ⟨not_document_of_marked decides read, (ofJson_kept decides).trans read⟩, ?_, fun used => ?_⟩
  · rintro (⟨fs, document, -⟩ | ⟨marker, -, used⟩) first decides
    · exact absurd document (not_document_of_marked decides read fs)
    · rwa [first?_eq_of_uses decides used]
  · cases decides : Marker.first? members with
    | none => exact .inl (document_of_first?_eq_none distinct decides read)
    | some marker =>
      have there := Marker.mem_names_of_stands (List.find?_some decides)
      exact .inr ⟨marker, there, used marker decides⟩

/-- a pattern with its options loses nothing -/
theorem ofJson_object_regex :
    let members : Fields Json := [("$options", .string "i"), ("$regex", .string "a")]
    ReadWhole members (.regex ⟨"a", "i"⟩) := by
  intro members
  have own : ∀ marker, Marker.first? members = some marker →
      ∀ name ∈ Fields.names members, marker.uses name := by
    rintro _ ⟨⟩
    decide
  exact (ofJson_object (by decide) rfl).2.2.2 own

/-- a field beside `$minKey` is lost -/
theorem ofJson_object_loses :
    let members : Fields Json := [("$minKey", .number (.natural 1)), ("x", .number (.natural 1))]
    (Fields.names members).Nodup ∧ Value.ofJson (.object members) = .ok .minKey ∧
      ¬ ReadWhole members .minKey := by
  intro members
  refine ⟨by decide, rfl, ?_⟩
  rintro (⟨fs, document, -⟩ | ⟨marker, there, used⟩)
  · cases document
  · have lone : marker.uses "x" := used "x" (by decide)
    revert there lone
    cases marker <;> decide

end Bson
