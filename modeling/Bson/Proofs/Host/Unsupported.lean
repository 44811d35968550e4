import Mathlib.Algebra.Group.Nat.Defs
import Bson.Host.Projection
import Bson.Proofs.Error.Paths
import Bson.Proofs.Result
import Bson.Proofs.Text.Decimal

/-!
# Host records without a value

A host record has no value exactly if something stands in it that has none, and the error names
the first such place.

* `Host.visits`         what is met in a host record, in order, with the names that lead there: a
                        map key is met before its value, and adds no name of its own;
* `Visit.offence?`      the type of what has no value: a number that is too wide or too narrow, or a
                        map key that is no text (`Host.text?`);
* `Host.ordinary`       records of data alone: no reserved wrapper, no empty name;
* `Reports`             a result fails as the first offence says, and does not if there is none;
                        each step of the projection keeps this (`reports_map`, `reports_inField`,
                        `reports_bind`);
* `Host.toValue_fails`  so does the projection of a host record.
-/

namespace Bson

/-! ### what is met in a host record -/

def Host.text? : Host → Option String
  | .string s | .unitVariant s => .some s
  | .char c => .some (String.singleton c)
  | .some inner | .named _ inner => inner.text?
  | _ => Option.none

def Host.typeName : Host → String
  | .bool _ => "Boolean"
  | .int8 _ | .int16 _ | .int32 _ | .uint8 _ | .uint16 _ => "Int32"
  | .int64 _ | .uint32 _ | .uint64 _ | .int128 _ | .uint128 _ => "Int64"
  | .float32 _ | .float64 _ => "Double"
  | .char _ | .string _ | .unitVariant _ => "String"
  | .bytes _ => "Binary"
  | .none | .unit => "Null"
  | .namedUnit name => (unitValue name).typeName
  | .some inner | .named _ inner => inner.typeName
  | .sequence _ | .tuple _ | .namedTuple _ _ => "Array"
  | .valueVariant _ _ | .tupleVariant _ _ | .recordVariant _ _ | .map _ | .record _ _ => "Document"
  | .failure _ | .valueBeforeKey _ => ""

/-- one thing that is met: a record without parts, or a map key after its parts -/
inductive Visit where
  | leaf (h : Host)
  | key (k : Host)

/-- the type of what has no value; nothing if it has one -/
def Visit.offence? : Visit → Option String
  | leaf (.float32 _) => some "f32"
  | leaf (.int128 _) => some "i128"
  | leaf (.uint128 _) => some "u128"
  | leaf (.uint64 n) => if n.toNat < 2 ^ 63 then none else some "u64 above i64::MAX"
  | leaf _ => none
  | key k => if k.text?.isSome then none else some (k.typeName ++ " map key")

/-- what is met, each with the names that lead there -/
abbrev Visits := List (List String × Visit)

def Visits.below (name : String) (visits : Visits) : Visits :=
  visits.map fun w => (name :: w.1, w.2)

/-- what is met, seen from one level up; the key is no text if it is missing -/
def Visits.belowKey : Option String → Visits → Visits
  | some name, visits => visits.below name
  | none, visits => visits

mutual

/-- what is met in a host record, in the order in which it is met -/
def Host.visits : Host → Visits
  | .some inner | .named _ inner => inner.visits
  | .valueVariant variant inner => inner.visits.below variant
  | .sequence items | .tuple items | .namedTuple _ items => visitsOfItems 0 items
  | .tupleVariant variant items => (visitsOfItems 0 items).below variant
  | .map entries => visitsOfEntries entries
  | .record _ fields => visitsOfFields fields
  | .recordVariant variant fields => (visitsOfFields fields).below variant
  | h => [([], .leaf h)]

def visitsOfItems (i : Nat) : List Host → Visits
  | [] => []
  | h :: rest => h.visits.below (Decimal.ofNat i) ++ visitsOfItems (i + 1) rest

def visitsOfEntries : List (Host × Host) → Visits
  | [] => []
  | (k, h) :: rest =>
    k.visits ++ (([], .key k) :: (h.visits.belowKey k.text? ++ visitsOfEntries rest))

def visitsOfFields : List (String × Host) → Visits
  | [] => []
  | (name, h) :: rest => h.visits.below name ++ visitsOfFields rest

end

mutual

/-- whether a host record is data without reserved wrappers and without empty names -/
def Host.ordinary : Host → Bool
  | .some inner => inner.ordinary
  | .named name inner => !Reserved.isReserved name && inner.ordinary
  | .valueVariant variant inner => variant != "" && inner.ordinary
  | .sequence items | .tuple items | .namedTuple _ items => ordinaryItems items
  | .tupleVariant variant items => variant != "" && ordinaryItems items
  | .map entries => ordinaryEntries entries
  | .record _ fields => ordinaryFields fields
  | .recordVariant variant fields => variant != "" && ordinaryFields fields
  | .failure _ | .valueBeforeKey _ => false
  | _ => true

def ordinaryItems : List Host → Bool
  | [] => true
  | h :: rest => h.ordinary && ordinaryItems rest

def ordinaryEntries : List (Host × Host) → Bool
  | [] => true
  | (k, h) :: rest =>
    k.text? != some "" && k.ordinary && h.ordinary && ordinaryEntries rest

def ordinaryFields : List (String × Host) → Bool
  | [] => true
  | (name, h) :: rest => name != "" && h.ordinary && ordinaryFields rest

end

theorem toValue_named {name : String} {inner : Host} (ordinary : (Host.named name inner).ordinary) :
    (Host.named name inner).toValue = inner.toValue ∧ inner.ordinary := by
  obtain ⟨free, ordinary⟩ := Bool.and_eq_true_iff.1 ordinary
  rw [Bool.not_eq_true'] at free
  rw [Host.toValue, free]
  exact ⟨rfl, ordinary⟩

theorem ordinaryEntries_cons_iff {k h : Host} {rest : List (Host × Host)} :
    ordinaryEntries ((k, h) :: rest) ↔
      k.text? ≠ some "" ∧ k.ordinary ∧ h.ordinary ∧ ordinaryEntries rest := by
  simp only [ordinaryEntries, Bool.and_eq_true, bne_iff_ne, and_assoc]

theorem ordinaryFields_cons_iff {name : String} {h : Host} {rest : List (String × Host)} :
    ordinaryFields ((name, h) :: rest) ↔ name ≠ "" ∧ h.ordinary ∧ ordinaryFields rest := by
  simp only [ordinaryFields, Bool.and_eq_true, bne_iff_ne, and_assoc]

/-! ### the first offence -/

/-- where the first thing without a value is met, and its type -/
def Visits.firstOffence (visits : Visits) : Option (List String × String) :=
  visits.findSome? fun w => w.2.offence?.map fun t => (w.1, t)

theorem firstOffence_append (visits more : Visits) :
    (visits ++ more : Visits).firstOffence = visits.firstOffence.or more.firstOffence :=
  List.findSome?_append

theorem firstOffence_cons (names : List String) (visit : Visit) (more : Visits) :
    Visits.firstOffence ((names, visit) :: more) =
      (visit.offence?.map fun t => (names, t)).or more.firstOffence := by
  rw [Visits.firstOffence, List.findSome?_cons]
  cases visit.offence? <;> rfl

theorem firstOffence_alone (visit : Visit) :
    Visits.firstOffence [([], visit)] = visit.offence?.map fun t => ([], t) := by
  rw [firstOffence_cons]
  exact Option.or_none

theorem firstOffence_below (name : String) (visits : Visits) :
    (visits.below name).firstOffence =
      visits.firstOffence.map fun w => (name :: w.1, w.2) := by
  induction visits with
  | nil => rfl
  | cons w rest ih =>
    obtain ⟨names, visit⟩ := w
    show Visits.firstOffence ((name :: names, visit) :: Visits.below name rest) = _
    rw [firstOffence_cons, firstOffence_cons, ih]
    cases visit.offence? <;> rfl

/-- a result fails as the first offence says, and does not fail if there is none -/
def Reports {α : Type} : Option (List String × String) → Except Error α → Prop
  | none, result => ∃ a, result = .ok a
  | some (names, t), result => result = .error ((Fault.unsupportedType t).error.under names)

section

variable {α β γ : Type} {offence later : Option (List String × String)} {result : Except Error α}

theorem reports_map (f : α → β) (h : Reports offence result) : Reports offence (result.map f) := by
  cases offence with
  | none =>
    obtain ⟨a, rfl⟩ := h
    exact ⟨f a, rfl⟩
  | some w => exact Except.map_eq_error_iff.2 h

theorem reports_inField (name : String) (h : Reports offence result) :
    Reports (offence.map fun w => (name :: w.1, w.2)) (inField name result) := by
  cases offence with
  | none =>
    obtain ⟨a, rfl⟩ := h
    exact ⟨a, rfl⟩
  | some w =>
    obtain rfl : result = _ := h
    rfl

theorem reports_bind {f : α → Except Error β} (h : Reports offence result)
    (next : ∀ a, result = .ok a → Reports later (f a)) :
    Reports (offence.or later) (result >>= f) := by
  cases offence with
  | none =>
    obtain ⟨a, rfl⟩ := h
    exact next a rfl
  | some w =>
    obtain rfl : result = _ := h
    rfl

theorem reports_first_then_rest {rest : Except Error β} {f : α → β → γ}
    (here : Reports offence result) (there : Reports later rest) :
    Reports (offence.or later) (result >>= fun v => rest >>= fun vs => pure (f v vs)) := by
  refine reports_bind here fun v _ => ?_
  have alone : Reports (later.or none) (rest >>= fun vs => pure (f v vs)) :=
    reports_bind there fun vs _ => ⟨f v vs, rfl⟩
  rwa [Option.or_none] at alone

end

/-! ### the first offence is what is reported -/

/-- the text and the type name of a host record are those of its value -/
theorem Host.value_kind : ∀ (h : Host) {v : Value}, h.ordinary → h.toValue = .ok v →
    v.asString? = h.text? ∧ v.typeName = h.typeName
  | .some inner, _, ordinary, read => inner.value_kind ordinary read
  | .named name inner, _, ordinary, read => by
    obtain ⟨same, ordinary⟩ := toValue_named ordinary
    exact inner.value_kind ordinary (same ▸ read)
  | .uint64 n, _, _, read => by
    rw [Host.toValue, naturalValue] at read
    split at read <;> cases read
    exact ⟨rfl, rfl⟩
  | .namedUnit name, _, _, read => by
    cases read
    refine ⟨?_, rfl⟩
    rw [unitValue]
    split <;> rfl
  | .valueVariant _ _, _, _, read | .sequence _, _, _, read | .tuple _, _, _, read
  | .namedTuple _ _, _, _, read | .tupleVariant _ _, _, _, read | .map _, _, _, read
  | .record _ _, _, _, read | .recordVariant _ _, _, _, read => by
    obtain ⟨_, -, rfl⟩ := Except.map_eq_ok_iff.1 read
    exact ⟨rfl, rfl⟩
  | .bool _, _, _, read | .int8 _, _, _, read | .int16 _, _, _, read | .int32 _, _, _, read
  | .int64 _, _, _, read | .uint8 _, _, _, read | .uint16 _, _, _, read | .uint32 _, _, _, read
  | .float64 _, _, _, read | .char _, _, _, read | .string _, _, _, read | .bytes _, _, _, read
  | .none, _, _, read | .unit, _, _, read | .unitVariant _, _, _, read => by
    cases read
    exact ⟨rfl, rfl⟩
  | .int128 _, _, _, read | .uint128 _, _, _, read | .float32 _, _, _, read
  | .failure _, _, _, read | .valueBeforeKey _, _, _, read => by cases read

theorem reports_naturalValue (n : UInt64) :
    Reports ((Visit.leaf (.uint64 n)).offence?.map fun t => ([], t)) (naturalValue n) := by
  have half : 2 ^ 63 = 0x8000000000000000 := rfl
  rw [Visit.offence?, naturalValue, half]
  split
  · exact ⟨_, rfl⟩
  · rfl

theorem keyName_eq (v : Value) :
    keyName v = match v.asString? with
      | some s => .ok s
      | none => unsupported (v.typeName ++ " map key") := by
  cases v <;> rfl

theorem reports_keyName {k : Host} {v : Value} (ordinary : k.ordinary) (read : k.toValue = .ok v) :
    Reports ((Visit.key k).offence?.map fun t => ([], t)) (keyName v) := by
  obtain ⟨text, type⟩ := k.value_kind ordinary read
  rw [keyName_eq, text, type, Visit.offence?]
  cases k.text? with
  | none => rfl
  | some s => exact ⟨s, rfl⟩

theorem text?_of_keyName {k : Host} {v : Value} {name : String} (ordinary : k.ordinary)
    (read : k.toValue = .ok v) (named : keyName v = .ok name) : k.text? = some name := by
  rw [keyName_eq, (k.value_kind ordinary read).1] at named
  cases found : k.text? with
  | none =>
    rw [found] at named
    cases named
  | some s =>
    rw [found] at named
    injection named with named
    rw [named]

mutual

/-- a host record of data has no value exactly if something in it has none -/
theorem Host.reports_toValue : ∀ (h : Host), h.ordinary →
    Reports h.visits.firstOffence h.toValue
  | .some inner, ordinary => inner.reports_toValue ordinary
  | .named name inner, ordinary => by
    obtain ⟨same, ordinary⟩ := toValue_named ordinary
    rw [same]
    exact inner.reports_toValue ordinary
  | .valueVariant variant inner, ordinary => by
    obtain ⟨-, ordinary⟩ := Bool.and_eq_true_iff.1 ordinary
    rw [Host.visits, firstOffence_below]
    exact reports_map _ (reports_inField variant (inner.reports_toValue ordinary))
  | .sequence items, ordinary | .tuple items, ordinary | .namedTuple _ items, ordinary =>
    reports_map _ (reports_itemValues items 0 ordinary)
  | .tupleVariant variant items, ordinary => by
    obtain ⟨-, ordinary⟩ := Bool.and_eq_true_iff.1 ordinary
    rw [Host.visits, firstOffence_below]
    exact reports_map _ (reports_inField variant (reports_itemValues items 0 ordinary))
  | .map entries, ordinary => reports_map _ (reports_entryValues entries ordinary)
  | .record _ fields, ordinary => reports_map _ (reports_fieldValues fields ordinary)
  | .recordVariant variant fields, ordinary => by
    obtain ⟨-, ordinary⟩ := Bool.and_eq_true_iff.1 ordinary
    rw [Host.visits, firstOffence_below]
    exact reports_map _ (reports_inField variant (reports_fieldValues fields ordinary))
  | .uint64 n, _ => by
    show Reports (Visits.firstOffence [([], .leaf (.uint64 n))]) (naturalValue n)
    rw [firstOffence_alone]
    exact reports_naturalValue n
  | .int128 _, _ | .uint128 _, _ | .float32 _, _ => rfl
  | .bool _, _ | .int8 _, _ | .int16 _, _ | .int32 _, _ | .int64 _, _ | .uint8 _, _
  | .uint16 _, _ | .uint32 _, _ | .float64 _, _ | .char _, _ | .string _, _ | .bytes _, _
  | .none, _ | .unit, _ | .namedUnit _, _ | .unitVariant _, _ => ⟨_, rfl⟩
  | .failure _, ordinary | .valueBeforeKey _, ordinary => by cases ordinary

theorem reports_itemValues : ∀ (items : List Host) (i : Nat), ordinaryItems items →
    Reports (visitsOfItems i items).firstOffence (itemValues i items)
  | [], _, _ => ⟨[], rfl⟩
  | h :: rest, i, ordinary => by
    obtain ⟨here, more⟩ := Bool.and_eq_true_iff.1 ordinary
    rw [visitsOfItems, firstOffence_append, firstOffence_below, itemValues]
    exact reports_first_then_rest (reports_inField _ (h.reports_toValue here))
      (reports_itemValues rest (i + 1) more)

theorem reports_entryValues : ∀ (entries : List (Host × Host)), ordinaryEntries entries →
    Reports (visitsOfEntries entries).firstOffence (entryValues entries)
  | [], _ => ⟨[], rfl⟩
  | (k, h) :: rest, ordinary => by
    obtain ⟨-, key, here, more⟩ := ordinaryEntries_cons_iff.1 ordinary
    rw [visitsOfEntries, firstOffence_append, firstOffence_cons, firstOffence_append, entryValues]
    -- the parts of the key come first, then the key; only a key that is a text leads to its value
    refine reports_bind (k.reports_toValue key) fun v read => ?_
    refine reports_bind (reports_keyName key read) fun name named => ?_
    rw [text?_of_keyName key read named, Visits.belowKey, firstOffence_below]
    exact reports_first_then_rest (reports_inField name (h.reports_toValue here))
      (reports_entryValues rest more)

theorem reports_fieldValues : ∀ (fields : List (String × Host)), ordinaryFields fields →
    Reports (visitsOfFields fields).firstOffence (fieldValues fields)
  | [], _ => ⟨[], rfl⟩
  | (name, h) :: rest, ordinary => by
    obtain ⟨-, here, more⟩ := ordinaryFields_cons_iff.1 ordinary
    rw [visitsOfFields, firstOffence_append, firstOffence_below, fieldValues]
    exact reports_first_then_rest (reports_inField name (h.reports_toValue here))
      (reports_fieldValues rest more)

end

/-! ### the names that lead to it -/

def Visits.Named (visits : Visits) : Prop := ∀ w ∈ visits, ∀ name ∈ w.1, name ≠ ""

theorem named_append {visits more : Visits} (first : visits.Named) (rest : more.Named) :
    (visits ++ more : Visits).Named := List.forall_mem_append.2 ⟨first, rest⟩

theorem named_leaf (visit : Visit) : Visits.Named [([], visit)] :=
  List.forall_mem_singleton.2 (List.forall_mem_nil _)

theorem named_below {name : String} {visits : Visits} (given : name ≠ "") (named : visits.Named) :
    (visits.below name).Named :=
  List.forall_mem_map.2 fun w there => List.forall_mem_cons.2 ⟨given, named w there⟩

mutual

theorem Host.named_visits : ∀ (h : Host), h.ordinary → h.visits.Named
  | .some inner, ordinary => inner.named_visits ordinary
  | .named _ inner, ordinary => inner.named_visits (toValue_named ordinary).2
  | .valueVariant variant inner, ordinary => by
    obtain ⟨given, ordinary⟩ := Bool.and_eq_true_iff.1 ordinary
    exact named_below (bne_iff_ne.1 given) (inner.named_visits ordinary)
  | .sequence items, ordinary | .tuple items, ordinary | .namedTuple _ items, ordinary =>
    named_visitsOfItems items 0 ordinary
  | .tupleVariant variant items, ordinary => by
    obtain ⟨given, ordinary⟩ := Bool.and_eq_true_iff.1 ordinary
    exact named_below (bne_iff_ne.1 given) (named_visitsOfItems items 0 ordinary)
  | .map entries, ordinary => named_visitsOfEntries entries ordinary
  | .record _ fields, ordinary => named_visitsOfFields fields ordinary
  | .recordVariant variant fields, ordinary => by
    obtain ⟨given, ordinary⟩ := Bool.and_eq_true_iff.1 ordinary
    exact named_below (bne_iff_ne.1 given) (named_visitsOfFields fields ordinary)
  | .uint64 _, _ | .int128 _, _ | .uint128 _, _ | .float32 _, _
  | .bool _, _ | .int8 _, _ | .int16 _, _ | .int32 _, _ | .int64 _, _ | .uint8 _, _
  | .uint16 _, _ | .uint32 _, _ | .float64 _, _ | .char _, _ | .string _, _ | .bytes _, _
  | .none, _ | .unit, _ | .namedUnit _, _ | .unitVariant _, _ | .failure _, _
  | .valueBeforeKey _, _ => named_leaf _

theorem named_visitsOfItems : ∀ (items : List Host) (i : Nat), ordinaryItems items →
    (visitsOfItems i items).Named
  | [], _, _ => List.forall_mem_nil _
  | h :: rest, i, ordinary => by
    obtain ⟨here, more⟩ := Bool.and_eq_true_iff.1 ordinary
    exact named_append (named_below (Decimal.ofNat_ne_empty i) (h.named_visits here))
      (named_visitsOfItems rest (i + 1) more)

theorem named_visitsOfEntries : ∀ (entries : List (Host × Host)), ordinaryEntries entries →
    (visitsOfEntries entries).Named
  | [], _ => List.forall_mem_nil _
  | (k, h) :: rest, ordinary => by
    obtain ⟨given, key, here, more⟩ := ordinaryEntries_cons_iff.1 ordinary
    have value : (h.visits.belowKey k.text?).Named := by
      cases text : k.text? with
      | none => exact h.named_visits here
      | some name =>
        rw [text] at given
        have named : name ≠ "" := fun empty => given (congrArg some empty)
        exact named_below named (h.named_visits here)
    exact named_append (k.named_visits key)
      (named_append (named_leaf _) (named_append value (named_visitsOfEntries rest more)))

theorem named_visitsOfFields : ∀ (fields : List (String × Host)), ordinaryFields fields →
    (visitsOfFields fields).Named
  | [], _ => List.forall_mem_nil _
  | (name, h) :: rest, ordinary => by
    obtain ⟨given, here, more⟩ := ordinaryFields_cons_iff.1 ordinary
    exact named_append (named_below given (h.named_visits here))
      (named_visitsOfFields rest more)

end

theorem firstOffence_eq_none_iff {visits : Visits} :
    visits.firstOffence = none ↔ ∀ w ∈ visits, w.2.offence? = none := by
  rw [Visits.firstOffence, List.findSome?_eq_none_iff]
  simp only [Option.map_eq_none_iff]

theorem firstOffence_eq_some_iff {visits : Visits} {names : List String} {t : String} :
    visits.firstOffence = some (names, t) ↔
      ∃ before visit after, visits = before ++ (names, visit) :: after ∧
        (∀ w ∈ before, w.2.offence? = none) ∧ visit.offence? = some t := by
  rw [Visits.firstOffence, List.findSome?_eq_some_iff]
  simp only [Option.map_eq_none_iff, Option.map_eq_some_iff]
  constructor
  · rintro ⟨before, ⟨_, visit⟩, after, split, ⟨_, offence, ⟨⟩⟩, earlier⟩
    exact ⟨before, visit, after, split, earlier, offence⟩
  · rintro ⟨before, visit, after, split, earlier, offence⟩
    exact ⟨before, (names, visit), after, split, ⟨t, offence, rfl⟩, earlier⟩

/-- **Where a host record has no value**: a host record of data fails exactly if something is met in
it that has no value. The error is of the kind of types, and its path is the dotted join of the
names that lead to the first such thing. -/
theorem Host.toValue_fails {h : Host} (ordinary : h.ordinary) :
    ((∃ e, h.toValue = .error e) ↔ ∃ w ∈ h.visits, w.2.offence?.isSome) ∧
      ∀ e, h.toValue = .error e → e.kind = .type ∧
        ∃ before names visit after t, h.visits = before ++ (names, visit) :: after ∧
          (∀ w ∈ before, w.2.offence? = .none) ∧ visit.offence? = .some t ∧
          e = .located (.ofNames names) (.unsupportedType t) := by
  have reports := h.reports_toValue ordinary
  cases first : h.visits.firstOffence with
  | none =>
    rw [first] at reports
    obtain ⟨v, read⟩ := reports
    have fine := firstOffence_eq_none_iff.1 first
    refine ⟨⟨?_, ?_⟩, ?_⟩
    · rintro ⟨e, failed⟩
      rw [read] at failed
      cases failed
    · rintro ⟨w, there, offends⟩
      rw [fine w there] at offends
      cases offends
    · intro e failed
      rw [read] at failed
      cases failed
  | some found =>
    obtain ⟨names, t⟩ := found
    rw [first] at reports
    obtain ⟨before, visit, after, split, earlier, offence⟩ := firstOffence_eq_some_iff.1 first
    have there : (names, visit) ∈ h.visits := by
      rw [split]
      exact List.mem_append_right _ (.head _)
    have failed : h.toValue = .error (.located (.ofNames names) (.unsupportedType t)) := by
      have given := h.named_visits ordinary (names, visit) there
      rw [← Fault.under_of_named given]
      exact reports
    refine ⟨⟨fun _ => ⟨_, there, by rw [offence]; rfl⟩, fun _ => ⟨_, failed⟩⟩, fun e again => ?_⟩
    rw [failed] at again
    injection again with same
    subst same
    exact ⟨rfl, before, names, visit, after, t, split, earlier, offence, rfl⟩

/-- a number of single precision in a record of a sequence of a field -/
theorem Host.toValue_fails_single :
    let inner : Host := .record "Inner" [("ratio", .float32 (Double.ofInt 1))]
    let h : Host := .record "Outer" [("items", .sequence [inner])]
    h.toValue = .error (.located ⟨"items.0.ratio"⟩ (.unsupportedType "f32")) ∧
      ∃ w ∈ h.visits, w.2.offence?.isSome := by
  intro inner h
  have failed : h.toValue = .error (.located ⟨"items.0.ratio"⟩ (.unsupportedType "f32")) := rfl
  exact ⟨failed, (@Host.toValue_fails h rfl).1.1 ⟨_, failed⟩⟩

-- a key that is no text is reported where its map stands, before what is under it
example : (Host.valueVariant "V" (.map [(.some (.uint8 1), .int128 0)])).toValue =
    .error (.located ⟨"V"⟩ (.unsupportedType "Int32 map key")) := rfl

end Bson
