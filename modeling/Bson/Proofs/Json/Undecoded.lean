import Bson.Json.Extended
import Bson.Proofs.Error.Paths
import Bson.Proofs.Value.Frames
import Bson.Proofs.Wire.Encoding

/-!
# Values that JSON cannot show

A value is written as JSON unless bytes stand in it that do not decode.

* `Step`                a step into a value: to a field or an item, or into the scope of code.
                        `Step.names` are the names of a way without its scopes, `Step.segments`
                        those with `$scope` for each, where alone a scope can be told
                        (`Step.under_names_eq_iff`);
* `Value.captures`      the bytes that were left in a value, in order, with the way to each: those
                        that stand anywhere inside it (`Value.exists_mem_captures_iff`);
* `failure?`            the failure of a result, if it is one; each step of writing keeps the first
                        (`failure?_inField`, `failure?_then`);
* `Value.toJson_fails`  so writing fails as the first of the bytes that do not decode, under the
                        names of the way to them without its scopes.
-/

namespace Bson

/-! ### ways into a value -/

/-- a step into a value: to a field or an item, or into the scope of code -/
inductive Step where
  | named (name : String)
  | scope
  deriving DecidableEq

namespace Step

def names : List Step → List String
  | [] => []
  | named name :: rest => name :: names rest
  | scope :: rest => names rest

/-- the names on a way, with a segment for each scope -/
def segments : List Step → List String
  | [] => []
  | named name :: rest => name :: segments rest
  | scope :: rest => "$scope" :: segments rest

theorem segments_eq {way : List Step} (unscoped : scope ∉ way) : segments way = names way := by
  induction way with
  | nil => rfl
  | cons step rest ih =>
    obtain ⟨other, more⟩ := not_or.1 (mt List.mem_cons.2 unscoped)
    cases step with
    | named name => rw [segments, names, ih more]
    | scope => exact absurd rfl other

theorem length_under_le (way : List Step) (p : FieldPath) :
    (p.under (names way)).text.length + way.count scope ≤
      (p.under (segments way)).text.length := by
  induction way with
  | nil => exact Nat.le_refl _
  | cons step rest ih =>
    cases step with
    | named name =>
      have other : named name ≠ scope := fun same => by cases same
      rw [names, segments, FieldPath.under_cons, FieldPath.under_cons,
        FieldPath.length_within, FieldPath.length_within, List.count_cons_of_ne other]
      split <;> split <;> omega
    | scope =>
      have segment : "$scope".length = 6 := rfl
      rw [names, segments, FieldPath.under_cons, FieldPath.length_within,
        List.count_cons_self, segment]
      split <;> omega

/-- without the segments of its scopes, a way shows the same exactly if it has none, or if the error
has no path -/
theorem under_names_eq_iff {way : List Step} {e : Error} :
    e.under (names way) = e.under (segments way) ↔ e.path? = none ∨ scope ∉ way := by
  constructor
  · intro same
    refine or_iff_not_imp_left.2 fun path within => ?_
    cases e with
    | io | documentTooLarge => exact path rfl
    | located p f =>
      rw [Error.under_located, Error.under_located] at same
      injection same with same
      have longer := length_under_le way p
      have counted := List.count_pos_iff.2 within
      rw [same] at longer
      omega
  · rintro (path | unscoped)
    · rw [Error.under_of_path?_eq_none path, Error.under_of_path?_eq_none path]
    · rw [segments_eq unscoped]

end Step

/-! ### bytes that were left in a value -/

/-- bytes that were left in a value, each with the way to them -/
abbrev Captures := List (List Step × RawDocument)

def Captures.behind (step : Step) (captures : Captures) : Captures :=
  captures.map fun c => (step :: c.1, c.2)

mutual

def Value.captures : Value → Captures
  | .raw doc => [([], doc)]
  | .document fs | .map fs => capturesOfFields fs
  | .array items => capturesOfItems 0 items
  | .codeWithScope _ scope => (capturesOfFields scope).behind .scope
  | _ => []

def capturesOfFields : List (String × Value) → Captures
  | [] => []
  | (name, v) :: rest => v.captures.behind (.named name) ++ capturesOfFields rest

def capturesOfItems (i : Nat) : List Value → Captures
  | [] => []
  | v :: rest => v.captures.behind (.named (Decimal.ofNat i)) ++ capturesOfItems (i + 1) rest

end

theorem capturesOfItems_eq (i : Nat) (items : List Value) :
    capturesOfItems i items = capturesOfFields (numbered i items) := by
  induction items generalizing i with
  | nil => rfl
  | cons v rest ih => rw [capturesOfItems, numbered, capturesOfFields, ih]

theorem exists_mem_behind_iff {step : Step} {captures : Captures} {doc : RawDocument} :
    (∃ way, (way, doc) ∈ captures.behind step) ↔ ∃ way, (way, doc) ∈ captures := by
  simp only [Captures.behind, List.mem_map]
  constructor
  · rintro ⟨_, ⟨way, _⟩, there, ⟨⟩⟩
    exact ⟨way, there⟩
  · rintro ⟨way, there⟩
    exact ⟨_, (way, doc), there, rfl⟩

theorem exists_mem_capturesOfFields_iff {fs : Fields Value} {doc : RawDocument} :
    (∃ way, (way, doc) ∈ capturesOfFields fs) ↔ ∃ f ∈ fs, ∃ way, (way, doc) ∈ f.2.captures := by
  induction fs with
  | nil => simp [capturesOfFields]
  | cons f rest ih =>
    simp only [capturesOfFields, List.mem_append, exists_or, exists_mem_behind_iff, ih,
      List.mem_cons, exists_eq_or_imp]

namespace Value

/-- the captures of a value are the bytes that stand anywhere inside it -/
theorem exists_mem_captures_iff {v : Value} {doc : RawDocument} :
    (∃ way, (way, doc) ∈ v.captures) ↔ Holds doc v := by
  induction v using childInduction with
  | step v ih =>
    have fields {fs : Fields Value} (children : v.children = fs.map Prod.snd) (other : v ≠ raw doc) :
        (∃ way, (way, doc) ∈ capturesOfFields fs) ↔ Holds doc v := by
      rw [exists_mem_capturesOfFields_iff, holds_iff, or_iff_right other]
      have each (f) (hf : f ∈ fs) : (∃ way, (way, doc) ∈ f.2.captures) ↔ Holds doc f.2 :=
        ih f.2 (mem_children_of_fields children hf)
      simp only [children, List.mem_map, exists_exists_and_eq_and]
      exact exists_congr fun f => and_congr_right (each f)
    cases v with
    | document fs | map fs => exact fields rfl (by simp)
    | array items =>
      rw [captures, capturesOfItems_eq]
      exact fields (map_snd_numbered 0 items).symm (by simp)
    | codeWithScope code scope => exact exists_mem_behind_iff.trans (fields rfl (by simp))
    | raw d =>
      rw [holds_iff]
      simp [captures, children, eq_comm]
    | _ =>
      rw [holds_iff]
      simp [captures, children]

end Value

/-! ### the first failure -/

def failure? {α : Type} : Except Error α → Option Error
  | .ok _ => none
  | .error e => some e

section

variable {α β γ : Type} {result : Except Error α} {e : Error}

theorem failure?_eq_some_iff : failure? result = some e ↔ result = .error e := by
  cases result <;> simp [failure?]

theorem failure?_eq_none_iff : failure? result = none ↔ ∃ a, result = .ok a := by
  cases result <;> simp [failure?]

theorem failure?_map (f : α → β) (result : Except Error α) :
    failure? (result.map f) = failure? result := by
  cases result <;> rfl

theorem failure?_inField (name : String) (result : Except Error α) :
    failure? (inField name result) = (failure? result).map (Error.within name) := by
  cases result <;> rfl

theorem failure?_then (result : Except Error α) (rest : Except Error β) (f : α → β → γ) :
    failure? (result >>= fun a => rest >>= fun b => pure (f a b)) =
      (failure? result).or (failure? rest) := by
  cases result with
  | error e => rfl
  | ok a => cases rest <;> rfl

end

namespace Captures

/-- the failure of the first bytes that do not decode, under the names on the way to them -/
def firstFailure (captures : Captures) : Option Error :=
  captures.findSome? fun c => (failure? c.2.toDocument).map (Error.under (Step.names c.1))

theorem firstFailure_append (captures more : Captures) :
    firstFailure (captures ++ more) = captures.firstFailure.or more.firstFailure :=
  List.findSome?_append

theorem firstFailure_alone (doc : RawDocument) :
    firstFailure [([], doc)] = failure? doc.toDocument := by
  rw [firstFailure, List.findSome?_cons]
  cases failure? doc.toDocument <;> rfl

theorem firstFailure_behind_named (name : String) (captures : Captures) :
    (captures.behind (.named name)).firstFailure =
      captures.firstFailure.map (Error.within name) := by
  rw [firstFailure, firstFailure, behind, List.findSome?_map, List.map_findSome?]
  congr 1
  funext c
  exact (Option.map_map ..).symm

theorem firstFailure_behind_scope (captures : Captures) :
    (captures.behind .scope).firstFailure = captures.firstFailure := by
  rw [firstFailure, firstFailure, behind, List.findSome?_map]
  rfl

theorem firstFailure_eq_some_iff {captures : Captures} {e : Error} :
    captures.firstFailure = some e ↔
      ∃ before way doc after cause, captures = before ++ (way, doc) :: after ∧
        (∀ c ∈ before, ∃ d, c.2.toDocument = .ok d) ∧ doc.toDocument = .error cause ∧
          e = cause.under (Step.names way) := by
  rw [firstFailure, List.findSome?_eq_some_iff]
  simp only [Option.map_eq_none_iff, failure?_eq_none_iff, Option.map_eq_some_iff,
    failure?_eq_some_iff]
  constructor
  · rintro ⟨before, ⟨way, doc⟩, after, split, ⟨cause, refused, rfl⟩, earlier⟩
    exact ⟨before, way, doc, after, cause, split, earlier, refused, rfl⟩
  · rintro ⟨before, way, doc, after, cause, split, earlier, refused, rfl⟩
    exact ⟨before, (way, doc), after, split, ⟨cause, refused, rfl⟩, earlier⟩

theorem firstFailure_eq_none_iff {captures : Captures} :
    captures.firstFailure = none ↔ ∀ c ∈ captures, ∃ d, c.2.toDocument = .ok d := by
  rw [firstFailure, List.findSome?_eq_none_iff]
  simp only [Option.map_eq_none_iff, failure?_eq_none_iff]

end Captures

namespace Value

theorem failure?_expandedItems (i : Nat) (items : List Value) :
    failure? (expandedItems i items) = failure? (expandedFields (numbered i items)) := by
  induction items generalizing i with
  | nil => rfl
  | cons v rest ih =>
    rw [expandedItems, numbered, expandedFields, failure?_then, failure?_then, ih]

theorem failure?_expandedFields {fs : Fields Value}
    (h : ∀ f ∈ fs, failure? f.2.expanded = f.2.captures.firstFailure) :
    failure? (expandedFields fs) = (capturesOfFields fs).firstFailure := by
  induction fs with
  | nil => rfl
  | cons f rest ih =>
    obtain ⟨first, more⟩ := List.forall_mem_cons.1 h
    rw [expandedFields, failure?_then, failure?_inField, first, ih more, capturesOfFields,
      Captures.firstFailure_append, Captures.firstFailure_behind_named]

/-- a value is not decoded throughout exactly for the first of its bytes that do not decode -/
theorem failure?_expanded (v : Value) : failure? v.expanded = v.captures.firstFailure := by
  induction v using childInduction with
  | step v ih =>
    have fields {fs : Fields Value} (children : v.children = fs.map Prod.snd) :
        failure? (expandedFields fs) = (capturesOfFields fs).firstFailure :=
      failure?_expandedFields fun f hf => ih f.2 (mem_children_of_fields children hf)
    cases v with
    | document fs | map fs =>
      rw [expanded, failure?_map]
      exact fields rfl
    | array items =>
      rw [expanded, failure?_map, failure?_expandedItems, captures, capturesOfItems_eq]
      exact fields (map_snd_numbered 0 items).symm
    | codeWithScope code scope =>
      rw [expanded, failure?_map, captures, Captures.firstFailure_behind_scope]
      exact fields rfl
    | raw doc =>
      rw [expanded, failure?_map, captures, Captures.firstFailure_alone]
    | _ => rfl

theorem failure?_toJson (v : Value) : failure? v.toJson = v.captures.firstFailure := by
  rw [toJson, failure?_map, failure?_expanded]

theorem exists_toJson_error_iff {v : Value} :
    (∃ e, v.toJson = .error e) ↔ ∃ doc, Holds doc v ∧ ∃ cause, doc.toDocument = .error cause := by
  simp only [← failure?_eq_some_iff, failure?_toJson]
  constructor
  · rintro ⟨e, failed⟩
    obtain ⟨before, way, doc, after, cause, split, -, refused, -⟩ :=
      Captures.firstFailure_eq_some_iff.1 failed
    have there : (way, doc) ∈ v.captures := split ▸ List.mem_append_right _ (.head _)
    exact ⟨doc, exists_mem_captures_iff.1 ⟨way, there⟩, cause, failure?_eq_some_iff.2 refused⟩
  · rintro ⟨doc, holds, cause, refused⟩
    obtain ⟨way, there⟩ := exists_mem_captures_iff.2 holds
    refine Option.ne_none_iff_exists'.1 fun none => ?_
    obtain ⟨d, decoded⟩ := Captures.firstFailure_eq_none_iff.1 none (way, doc) there
    rw [failure?_eq_none_iff.2 ⟨d, decoded⟩] at refused
    cases refused

/-- **Values that JSON cannot show**: a value is not written as JSON exactly if bytes stand in it
that do not decode. The error is that of the first of them, in the order of fields and items, under
the names of the fields and the indices of the items on the way; if none is empty, they are joined
by dots in front of its path. A scope on the way has no name there, so the error is not the one
under the whole way, unless there is no scope on it or the error has no path. -/
theorem toJson_fails (v : Value) :
    ((∃ e, v.toJson = .error e) ↔
      ∃ doc, Holds doc v ∧
        ∃ cause, Config.standard.decodeDocument .nested doc.bytes = .error cause) ∧
    (∀ e, v.toJson = .error e ↔
      ∃ before way doc after cause, v.captures = before ++ (way, doc) :: after ∧
        (∀ c ∈ before, ∃ d, Config.standard.decodeDocument .nested c.2.bytes = .ok d) ∧
          Config.standard.decodeDocument .nested doc.bytes = .error cause ∧
            e = cause.under (Step.names way)) ∧
    (∀ doc, (∃ way, (way, doc) ∈ v.captures) ↔ Holds doc v) ∧
    (∀ way cause, Error.under (Step.names way) cause = cause.under (Step.segments way) ↔
      cause.path? = none ∨ .scope ∉ way) ∧
    (∀ names p f, (∀ name ∈ names, name ≠ "") →
      (Error.located p f).under names = .located (.ofNames (names ++ p.parts)) f) := by
  refine ⟨exists_toJson_error_iff, fun e => ?_, fun _ => exists_mem_captures_iff,
    fun _ _ => Step.under_names_eq_iff, fun names p f named => ?_⟩
  · rw [← failure?_eq_some_iff, failure?_toJson]
    exact Captures.firstFailure_eq_some_iff
  · rw [Error.under_located, FieldPath.under_of_named named]

/-- bytes with an unknown tag in an array in a document, behind bytes that decode -/
theorem toJson_fails_second :
    let good : RawDocument := ⟨[5, 0, 0, 0, 0]⟩
    let bad : RawDocument := ⟨[8, 0, 0, 0, 32, 120, 0, 0]⟩
    let v : Value := .document [("a", .raw good), ("b", .array [.null, .raw bad])]
    v.toJson = .error (.located (.ofNames ["b", "1", "x"]) (.invalidElementType 32)) ∧
      ∃ doc, Holds doc v ∧
        ∃ cause, Config.standard.decodeDocument .nested doc.bytes = .error cause := by
  intro good bad v
  obtain ⟨fails, first, -, -, path⟩ := toJson_fails v
  let cause : Error := .located ⟨"x"⟩ (.invalidElementType 32)
  have seen : cause.under ["b", "1"] =
      .located (.ofNames ["b", "1", "x"]) (.invalidElementType 32) := path _ _ _ (by decide)
  have earlier : ∀ c ∈ [([Step.named "a"], good)],
      ∃ d, Config.standard.decodeDocument .nested c.2.bytes = .ok d :=
    List.forall_mem_singleton.2 ⟨[], rfl⟩
  have failed : v.toJson = .error (cause.under ["b", "1"]) :=
    (first _).2 ⟨_, [.named "b", .named "1"], bad, [], cause, rfl, earlier, rfl, rfl⟩
  exact ⟨seen ▸ failed, fails.1 ⟨_, failed⟩⟩

/-- bytes in the scope of code are located as if the scope were the value itself, while an error in
reading a scope is located under `$scope` -/
theorem toJson_scope_unnamed :
    let doc : RawDocument := ⟨[13, 0, 0, 0, 16, 97, 0, 1, 0, 0, 0, 0, 0]⟩
    let v : Value := .codeWithScope "c" [("r", .raw doc)]
    let fault : Fault := .invalidDocument (.bytesAfterTerminator 1)
    Config.standard.decodeDocument .nested doc.bytes = .error fault.error ∧
      v.toJson = .error (.located (.ofNames ["r"]) fault) ∧
      v.toJson ≠ .error (.located (.ofNames ["$scope", "r"]) fault) ∧
      ofJson (.object [("$code", .string "c"),
        ("$scope", .object [("r", .object [("$numberLong", .string "x")])])]) =
          .error (.located (.ofNames ["$scope", "r"]) (.serialization (.badNumberLong "x"))) := by
  intro doc v fault
  have failed : v.toJson = .error (.located (.ofNames ["r"]) fault) := rfl
  refine ⟨rfl, failed, fun named => ?_, rfl⟩
  rw [failed] at named
  injection named with named
  injection named with path
  exact absurd path (by decide)

end Value

end Bson
