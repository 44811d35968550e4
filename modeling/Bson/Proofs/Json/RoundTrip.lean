import Bson.Proofs.Host.PassThrough
import Bson.Proofs.Json.Rendered

/-!
# Values through JSON

* `Value.dollarFree`     whether no field at any level has a name that starts like a marker;
* `Value.standardNaNs`   whether every NaN has one bit pattern;
* `Value.ofJson_toJson`  a value of this kind, with no maps, no bytes that were not read and no
                         repeated names, comes back from JSON as it was.
-/

namespace Bson

namespace Value

/-- whether no name of a field starts with a dollar sign, at any level -/
def dollarFree : Value → Bool :=
  everywhere fun
    | document fs | map fs | codeWithScope _ fs =>
      (Fields.names fs).all fun name => name.toList.head? != some '$'
    | _ => true

/-- whether every NaN is the one with an otherwise empty payload -/
def standardNaNs : Value → Bool :=
  everywhere fun
    | double d => !d.isNaN || d.bits == 0x7ff8000000000000
    | _ => true

theorem standard_of_standardNaNs {v : Value} (h : v.standardNaNs) : v.standard = v := by
  induction v using childInduction with
  | step v ih =>
    obtain ⟨here, inside⟩ := everywhere_iff.1 h
    have fields {fs : Fields Value} (hfs : v.children = fs.map Prod.snd) :
        fs.mapValues standard = fs := by
      rw [hfs, List.forall_mem_map] at ih inside
      have same : fs.mapValues standard = fs.mapValues id :=
        Fields.mapValues_congr fun f hf => ih f hf (inside f hf)
      rw [same, Fields.mapValues_id]
    cases v with
    | document fs | map fs | codeWithScope _ fs => rw [standard, standardInFields_eq, fields rfl]
    | array items =>
      have same : items.map standard = items.map id :=
        List.map_congr_left fun w hw => ih w hw (inside w hw)
      rw [standard, standardInItems_eq, same, List.map_id]
    | double d =>
      rw [standard, Double.standard]
      cases nan : d.isNaN with
      | false => rfl
      | true =>
        have word : Double.nan false = ⟨0x7ff8000000000000⟩ := by decide
        have bits : d.bits = 0x7ff8000000000000 := by simpa [nan] using here
        rw [if_pos rfl, word, ← bits]
    | _ => rfl

theorem unmarked_of_dollarFree {fs : Fields Value}
    (h : (Fields.names fs).all fun name => name.toList.head? != some '$') : unmarked fs := by
  have missing {name : String} (dollar : name.toList.head? = some '$') :
      Fields.get? name (fs.mapValues rendered) = none := by
    rw [Fields.get?_eq_none_iff, Fields.names_mapValues]
    intro there
    have other := List.all_eq_true.1 h name there
    rw [dollar] at other
    cases other
  have text : ∀ name ∈ textMarkers, name.toList.head? = some '$' := by decide
  have integer : ∀ name ∈ integerMarkers, name.toList.head? = some '$' := by decide
  have bare : ∀ name ∈ bareMarkers, name.toList.head? = some '$' := by decide
  refine unmarked_iff.2 ⟨fun name there => ?_, fun name there => ?_, fun name there => ?_⟩
  · rw [missing (text name there)]
    rfl
  · rw [missing (integer name there)]
    rfl
  · exact missing (bare name there)

theorem readable_of_dollarFree {v : Value} (plain : v.plain) (distinct : v.distinct)
    (dollarFree : v.dollarFree) : v.readable := by
  refine everywhere_imp (fun w h => ?_) (everywhere_and plain (everywhere_and distinct dollarFree))
  cases w with
  | document fs =>
    simp only [Bool.true_and, Bool.and_eq_true] at h ⊢
    exact ⟨h.1, unmarked_of_dollarFree h.2⟩
  | codeWithScope code fs =>
    simp only [Bool.true_and, Bool.and_eq_true] at h
    exact h.1
  | map | raw => cases h
  | _ => rfl

/-- **Values through JSON**: a value without maps, bytes that were not read, repeated names, names
that start with a dollar sign, and NaNs of other patterns is written as JSON, and read back from it
as it was: types, order of fields and bits of doubles included. -/
theorem ofJson_toJson {v : Value} (plain : v.plain) (distinct : v.distinct)
    (dollarFree : v.dollarFree) (nans : v.standardNaNs) :
    ∃ j, v.toJson = .ok j ∧ ofJson j = .ok v := by
  have readable := readable_of_dollarFree plain distinct dollarFree
  refine ⟨v.rendered, toJson_of_readable readable, ?_⟩
  rw [ofJson_rendered readable, standard_of_standardNaNs nans]

/-- every type, a small 64-bit integer, a whole double, a NaN, an infinity and code in a scope -/
theorem ofJson_toJson_every_type :
    let inner : Document := [("regex", .regex ⟨"^a", "i"⟩), ("code", .javaScript "f()"),
      ("nan", .double ⟨0x7ff8000000000000⟩), ("infinity", .double ⟨0xfff0000000000000⟩),
      ("whole", .double ⟨0x4000000000000000⟩), ("small", .int64 7), ("least", .int64 (-2 ^ 63)),
      ("narrow", .int32 (-7)), ("date", .dateTime (-1)), ("stamp", .timestamp 1)]
    let v : Value := .document [("binary", .binary [222, 173, 190, 239]), ("symbol", .symbol "s"),
      ("id", .objectId .zero), ("pointer", .dbPointer ⟨"c", .zero⟩),
      ("scope", .codeWithScope "g()" inner),
      ("items", .array [.null, .undefined, .minKey, .maxKey, .boolean true, .string "t",
        .document inner, .array []])]
    (v.plain ∧ v.distinct ∧ v.dollarFree ∧ v.standardNaNs) ∧
      ∃ j, v.toJson = .ok j ∧ ofJson j = .ok v := by
  intro inner v
  have plain : v.plain := by decide
  have distinct : v.distinct := by decide
  have dollarFree : v.dollarFree := by decide
  have nans : v.standardNaNs := by decide
  exact ⟨⟨plain, distinct, dollarFree, nans⟩, ofJson_toJson plain distinct dollarFree nans⟩

end Value

end Bson
