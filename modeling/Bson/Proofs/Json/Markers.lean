import Mathlib.Data.Option.Basic
import Bson.Json.Extended
import Bson.Proofs.Result

/-!
# Objects with markers

* `textMarkers`, `integerMarkers`, `bareMarkers`  the names that mark an object if their value is a
                            string, if it is an integer, and whatever it is;
* `Unmarked`                objects without a marker;
* `ofMarkers?_eq_none_iff`  they are the objects that are read as documents;
* `Marker`                  the thirteen markers, in the order in which they are looked for;
* `Marker.first?`           the first one of an object with a value of its kind, which decides
                            (`Marker.ofMarkers?_eq`);
* `ofMarkers?_eq_ok`        what the marker of an object can stand for.
-/

namespace Bson

def textMarkers : List String :=
  ["$oid", "$numberLong", "$numberDouble", "$binary", "$regex", "$code", "$symbol"]

def integerMarkers : List String := ["$date", "$timestamp"]

def bareMarkers : List String := ["$dbPointer", "$undefined", "$minKey", "$maxKey"]

/-- no member is a marker with a value of its kind -/
structure Unmarked (members : Fields Json) : Prop where
  text : ∀ name ∈ textMarkers, (Fields.get? name members).bind Json.asString? = none
  integer : ∀ name ∈ integerMarkers, (Fields.get? name members).bind Json.asInt64? = none
  bare : ∀ name ∈ bareMarkers, Fields.get? name members = none

theorem ofMarkers?_eq_none_iff {members : Fields Json} {scope : Unit → Scope} :
    ofMarkers? members scope = none ↔ Unmarked members := by
  have absent {α : Type} {name : String} {a : α} :
      (if Fields.contains name members = true then some a else none) = none ↔
        Fields.get? name members = none := by
    rw [Fields.contains]
    cases Fields.get? name members <;> simp
  constructor
  · intro h
    simp only [ofMarkers?, Option.orElse_eq_none, Option.map_eq_none_iff, absent] at h
    obtain ⟨oid, date, timestamp, long, double, binary, regex, pointer, code, symbol, undefined,
      least, greatest⟩ := h
    refine ⟨?_, ?_, ?_⟩
    · simp only [textMarkers, List.forall_mem_cons]
      exact ⟨oid, long, double, binary, regex, code, symbol, nofun⟩
    · simp only [integerMarkers, List.forall_mem_cons]
      exact ⟨date, timestamp, nofun⟩
    · simp only [bareMarkers, List.forall_mem_cons]
      exact ⟨pointer, undefined, least, greatest, nofun⟩
  · rintro ⟨text, integer, bare⟩
    simp only [textMarkers, integerMarkers, bareMarkers, List.forall_mem_cons] at text integer bare
    obtain ⟨oid, long, double, binary, regex, code, symbol, -⟩ := text
    obtain ⟨date, timestamp, -⟩ := integer
    obtain ⟨pointer, undefined, least, greatest, -⟩ := bare
    simp only [ofMarkers?, Option.orElse_eq_none, Option.map_eq_none_iff, absent]
    exact ⟨oid, date, timestamp, long, double, binary, regex, pointer, code, symbol, undefined,
      least, greatest⟩

/-! ### the markers one by one -/

/-- the names that mark an object as a value of a kind of its own -/
inductive Marker where
  | oid | date | timestamp | numberLong | numberDouble | binary | regex | dbPointer | code | symbol
  | undefined | minKey | maxKey
  deriving DecidableEq, Repr

namespace Marker

/-- the order in which they are looked for -/
def all : List Marker :=
  [oid, date, timestamp, numberLong, numberDouble, binary, regex, dbPointer, code, symbol,
    undefined, minKey, maxKey]

def name : Marker → String
  | oid => "$oid"
  | date => "$date"
  | timestamp => "$timestamp"
  | numberLong => "$numberLong"
  | numberDouble => "$numberDouble"
  | binary => "$binary"
  | regex => "$regex"
  | dbPointer => "$dbPointer"
  | code => "$code"
  | symbol => "$symbol"
  | undefined => "$undefined"
  | minKey => "$minKey"
  | maxKey => "$maxKey"

/-- what the marker stands for, if its member is there with a value of its kind -/
def meaning? (members : Fields Json) (scope : Unit → Scope) (marker : Marker) :
    Option (Except Error Value) :=
  let member? : Option Json := Fields.get? marker.name members
  let text? : Option String := member?.bind Json.asString?
  let integer? : Option Int64 := member?.bind Json.asInt64?
  match marker with
  | oid => text?.map fun hex => (ObjectId.locatedHex hex).map .objectId
  | date => integer?.map fun n => .ok (.dateTime n)
  | timestamp => integer?.map fun n => .ok (.timestamp n)
  | numberLong => text?.map Bson.numberLong
  | numberDouble => text?.map Bson.numberDouble
  | binary => text?.map binaryData
  | regex => text?.map fun pattern =>
    .ok (.regex ⟨pattern, ((Fields.get? "$options" members).bind Json.asString?).getD ""⟩)
  | dbPointer => member?.map pointer
  | code => text?.map fun code => codeInScope code (scope ())
  | symbol => text?.map fun s => .ok (.symbol s)
  | undefined => member?.map fun _ => .ok .undefined
  | minKey => member?.map fun _ => .ok .minKey
  | maxKey => member?.map fun _ => .ok .maxKey

/-- whether its member is there with a value of its kind -/
def stands (members : Fields Json) (marker : Marker) : Bool :=
  (marker.meaning? members fun _ => .absent).isSome

def first? (members : Fields Json) : Option Marker := all.find? (stands members)

theorem isSome_meaning? (members : Fields Json) (scope : Unit → Scope) (marker : Marker) :
    (marker.meaning? members scope).isSome = marker.stands members := by
  rw [stands]
  cases marker with
  | code => rw [meaning?, meaning?, Option.isSome_map, Option.isSome_map]
  | _ => rfl

theorem findSome?_meaning? (members : Fields Json) (scope : Unit → Scope) (markers : List Marker) :
    markers.findSome? (meaning? members scope) =
      (markers.find? (stands members)).bind (meaning? members scope) := by
  induction markers with
  | nil => rfl
  | cons marker rest ih =>
    rw [List.findSome?_cons, List.find?_cons, ← isSome_meaning? members scope]
    cases found : meaning? members scope marker with
    | none => exact ih
    | some result => exact found.symm

/-- the sequence of tests in `ofMarkers?`, as a search in the list of the markers -/
theorem ofMarkers?_eq_findSome? (members : Fields Json) (scope : Unit → Scope) :
    ofMarkers? members scope = all.findSome? (meaning? members scope) := by
  have bare {name : String} {result : Except Error Value} :
      (if Fields.contains name members then some result else none) =
        (Fields.get? name members).map fun _ => result := by
    rw [Fields.contains]
    cases Fields.get? name members <;> rfl
  have tested (marker : Marker) (rest : List Marker) :
      (marker :: rest).findSome? (meaning? members scope) =
        (meaning? members scope marker <|> rest.findSome? (meaning? members scope)) := by
    rw [List.findSome?_cons]
    cases meaning? members scope marker <;> rfl
  have last (result : Option (Except Error Value)) : (result <|> none) = result := by
    cases result <;> rfl
  simp only [all, tested, List.findSome?_nil, last, ofMarkers?, bare]
  rfl

theorem ofMarkers?_eq (members : Fields Json) (scope : Unit → Scope) :
    ofMarkers? members scope = (first? members).bind (meaning? members scope) := by
  rw [ofMarkers?_eq_findSome?, findSome?_meaning?]
  rfl

end Marker

/-- whether a value is of a type that some marker stands for, the scope of code apart -/
def Value.hasMarker : Value → Bool
  | .objectId _ | .dateTime _ | .timestamp _ | .int64 _ | .double _ | .binary _ | .regex _
  | .dbPointer _ | .javaScript _ | .symbol _ | .undefined | .minKey | .maxKey => true
  | _ => false

theorem hasMarker_numberLong {text : String} {v : Value} (h : numberLong text = .ok v) :
    v.hasMarker := by
  rw [numberLong] at h
  split at h <;> cases h
  rfl

theorem hasMarker_numberDouble {text : String} {v : Value} (h : numberDouble text = .ok v) :
    v.hasMarker := by
  rw [numberDouble] at h
  split at h <;> cases h
  rfl

theorem hasMarker_binaryData {text : String} {v : Value} (h : binaryData text = .ok v) :
    v.hasMarker := by
  rw [binaryData] at h
  split at h <;> cases h
  rfl

theorem hasMarker_pointer {j : Json} {v : Value} (h : pointer j = .ok v) : v.hasMarker := by
  rw [pointer] at h
  split at h
  · cases h
  · split at h
    · cases h
    · obtain ⟨id, -, rfl⟩ := Except.map_eq_ok_iff.1 h
      rfl

theorem codeInScope_eq_ok {code : String} {scope : Scope} {v : Value}
    (h : codeInScope code scope = .ok v) :
    v.hasMarker ∨ ∃ fs, v = .codeWithScope code fs ∧ scope = .fields (.ok fs) := by
  cases scope with
  | absent =>
    cases h
    exact .inl rfl
  | noObject => cases h
  | fields result =>
    obtain ⟨fs, read, rfl⟩ := Except.map_eq_ok_iff.1 h
    rw [inField_eq_ok_iff.1 read]
    exact .inr ⟨fs, rfl, rfl⟩

theorem ofMarkers?_eq_ok {members : Fields Json} {scope : Unit → Scope} {v : Value}
    (h : ofMarkers? members scope = some (.ok v)) :
    v.hasMarker ∨ ∃ code fs, v = .codeWithScope code fs ∧ scope () = .fields (.ok fs) := by
  rw [Marker.ofMarkers?_eq] at h
  obtain ⟨marker, -, meaning⟩ := Option.bind_eq_some_iff.1 h
  cases marker with
  | oid =>
    obtain ⟨hex, -, read⟩ := Option.map_eq_some_iff.1 meaning
    obtain ⟨id, -, rfl⟩ := Except.map_eq_ok_iff.1 read
    exact .inl rfl
  | numberLong =>
    obtain ⟨text, -, read⟩ := Option.map_eq_some_iff.1 meaning
    exact .inl (hasMarker_numberLong read)
  | numberDouble =>
    obtain ⟨text, -, read⟩ := Option.map_eq_some_iff.1 meaning
    exact .inl (hasMarker_numberDouble read)
  | binary =>
    obtain ⟨text, -, read⟩ := Option.map_eq_some_iff.1 meaning
    exact .inl (hasMarker_binaryData read)
  | dbPointer =>
    obtain ⟨j, -, read⟩ := Option.map_eq_some_iff.1 meaning
    exact .inl (hasMarker_pointer read)
  | code =>
    obtain ⟨code, -, read⟩ := Option.map_eq_some_iff.1 meaning
    obtain marked | ⟨fs, rfl, inside⟩ := codeInScope_eq_ok read
    · exact .inl marked
    · exact .inr ⟨code, fs, rfl, inside⟩
  | date | timestamp | regex | symbol | undefined | minKey | maxKey =>
    obtain ⟨_, -, read⟩ := Option.map_eq_some_iff.1 meaning
    cases read
    exact .inl rfl

end Bson
