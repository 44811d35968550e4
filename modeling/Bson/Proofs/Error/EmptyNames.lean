import Mathlib.Data.List.DropRight
import Bson.Host.Projection
import Bson.Proofs.Access.Failures
import Bson.Proofs.Wire.NulBytes
import Bson.Proofs.Wire.Refused

/-!
# Empty names in paths

There are three ways from a list of names to a path: joined at once (`FieldPath.ofNames`), downwards
from the root name by name (`FieldPath.below`), and upwards to the root (`FieldPath.under`). One
empty name alone is written as the root is.

* `FieldPath.below_root`  downwards, the empty names in front are lost;
* `FieldPath.under_root_eq`  upwards, the empty names at the end are lost;
* `FieldPath.ofNames_dropWhile_eq_iff`, `FieldPath.ofNames_rdropWhile_eq_iff`  which lists of names
                        lose nothing;
* `Document.encode_located`, `Config.decode_located`, `Host.toValue_nested`, `Target.reach_located`
                        where failures are located: upwards by the encoder, by the decoder and by
                        the projection of host records, and at all names at once by an attempt to
                        reach;
* `FieldPath.built_alike_iff`  so these agree exactly where nothing is lost.
-/

namespace Bson

open FieldPath Grammar

namespace FieldPath

variable {names more : List String}

/-! ### downwards -/

/-- the path of the place to which names lead from the place of this one -/
def below (names : List String) (p : FieldPath) : FieldPath := names.foldl child p

@[simp] theorem below_nil (p : FieldPath) : p.below [] = p := rfl

@[simp] theorem below_cons (name : String) (names : List String) (p : FieldPath) :
    p.below (name :: names) = (p.child name).below names := rfl

theorem ofNames_append_eq_root (empty : ofNames (names ++ more) = root) :
    ofNames names = root ∧ ofNames more = root := by
  rcases ofNames_eq_root_iff.1 empty with none | single
  · obtain ⟨rfl, rfl⟩ := List.append_eq_nil_iff.1 none
    exact ⟨rfl, rfl⟩
  · rcases List.append_eq_singleton_iff.1 single with ⟨rfl, rfl⟩ | ⟨rfl, rfl⟩
    · exact ⟨rfl, rfl⟩
    · exact ⟨rfl, rfl⟩

theorem child_ofNames (name : String) (seen : ofNames names ≠ root) :
    (ofNames names).child name = ofNames (names ++ [name]) := by
  have above : names ≠ [] := fun none => seen (ofNames_eq_root_iff.2 (.inl none))
  rw [child, if_neg (mt isRoot_iff.1 seen), ofNames, ofNames,
    String.intercalate_append_of_ne_nil above (List.cons_ne_nil _ _),
    String.intercalate_singleton]

theorem below_ofNames (seen : ofNames names ≠ root) (more : List String) :
    (ofNames names).below more = ofNames (names ++ more) := by
  induction more generalizing names with
  | nil => rw [below_nil, List.append_nil]
  | cons name more ih =>
    have still : ofNames (names ++ [name]) ≠ root :=
      fun empty => seen (ofNames_append_eq_root empty).1
    rw [below_cons, child_ofNames name seen, ih still, List.append_assoc, List.singleton_append]

theorem ofNames_singleton_ne_root {name : String} (given : name ≠ "") :
    ofNames [name] ≠ root := by
  rw [ofNames, String.intercalate_singleton, root, Ne, mk.injEq]
  exact given

/-- downwards from the root, the empty names in front are lost -/
theorem below_root (names : List String) :
    root.below names = ofNames (names.dropWhile (· == "")) := by
  induction names with
  | nil => rfl
  | cons name rest ih =>
    by_cases empty : name = ""
    · subst empty
      exact ih
    · have first : root.child name = ofNames [name] := by
        rw [root_child, ofNames, String.intercalate_singleton]
      rw [List.dropWhile_cons_of_neg (by simpa using empty), below_cons, first]
      exact below_ofNames (ofNames_singleton_ne_root empty) rest

/-! ### upwards -/

theorem under_ofNames (names : List String) (seen : ofNames more ≠ root) :
    (ofNames more).under names = ofNames (names ++ more) := by
  induction names with
  | nil => rfl
  | cons name rest ih =>
    have still : rest ++ more ≠ [""] := by
      intro single
      exact seen (ofNames_append_eq_root (ofNames_eq_root_iff.2 (.inr single))).2
    rw [under_cons, ih, within_ofNames name still, List.cons_append]

/-- upwards to the root, the empty names at the end are lost -/
theorem under_root_eq (names : List String) :
    root.under names = ofNames (names.rdropWhile (· == "")) := by
  -- the last name is the first that is put in front
  induction names using List.reverseRecOn with
  | nil => rfl
  | append_singleton names last ih =>
    have first : root.under (names ++ [last]) = (ofNames [last]).under names := by
      rw [under, List.foldr_append, ofNames, String.intercalate_singleton]
      rfl
    by_cases empty : last = ""
    · subst empty
      rw [List.rdropWhile_concat_pos _ _ _ rfl, ← ih, first]
      rfl
    · rw [List.rdropWhile_concat_neg _ _ _ (by simpa using empty), first]
      exact under_ofNames names (ofNames_singleton_ne_root empty)

/-! ### what is lost -/

theorem ofNames_append_longer (first : names ≠ []) (rest : more ≠ []) :
    (ofNames names).text.length < (ofNames (names ++ more)).text.length ∧
      (ofNames more).text.length < (ofNames (names ++ more)).text.length := by
  have dot : ".".length = 1 := rfl
  rw [text_ofNames_append first rest, String.length_append, String.length_append, dot]
  constructor <;> omega

/-- names in front of others leave no trace only if there are none, or one empty name alone -/
theorem ofNames_eq_append_left_iff :
    ofNames more = ofNames (names ++ more) ↔ names = [] ∨ names = [""] ∧ more = [] := by
  by_cases first : names = []
  · subst first
    exact iff_of_true rfl (.inl rfl)
  by_cases rest : more = []
  · subst rest
    rw [List.append_nil, eq_comm]
    exact ofNames_eq_root_iff.trans (or_congr_right (and_iff_left rfl).symm)
  · refine iff_of_false (fun same => ?_) (not_or.2 ⟨first, fun alone => rest alone.2⟩)
    have longer := (ofNames_append_longer first rest).2
    rw [same] at longer
    exact Nat.lt_irrefl _ longer

theorem ofNames_eq_append_right_iff :
    ofNames names = ofNames (names ++ more) ↔ more = [] ∨ more = [""] ∧ names = [] := by
  by_cases rest : more = []
  · subst rest
    exact iff_of_true (by rw [List.append_nil]) (.inl rfl)
  by_cases first : names = []
  · subst first
    rw [List.nil_append, eq_comm]
    exact ofNames_eq_root_iff.trans (or_congr_right (and_iff_left rfl).symm)
  · refine iff_of_false (fun same => ?_) (not_or.2 ⟨rest, fun alone => first alone.2⟩)
    have longer := (ofNames_append_longer first rest).1
    rw [same] at longer
    exact Nat.lt_irrefl _ longer

theorem ofNames_dropWhile_eq_iff :
    ofNames (names.dropWhile (· == "")) = ofNames names ↔
      names = [""] ∨ names.head? ≠ some "" := by
  have split := List.takeWhile_append_dropWhile (p := (· == "")) (l := names)
  have lost : names.takeWhile (· == "") = [] ↔ names.head? ≠ some "" := by
    cases names <;> simp [List.takeWhile_cons]
  have alone : names.takeWhile (· == "") = [""] ∧ names.dropWhile (· == "") = [] ↔
      names = [""] := by
    constructor
    · rintro ⟨first, rest⟩
      rw [← split, first, rest, List.append_nil]
    · rintro rfl
      exact ⟨rfl, rfl⟩
  rw [← lost, ← alone, or_comm, ← ofNames_eq_append_left_iff, split]

theorem ofNames_rdropWhile_eq_iff :
    ofNames (names.rdropWhile (· == "")) = ofNames names ↔
      names = [""] ∨ names.getLast? ≠ some "" := by
  have split := List.rdropWhile_append_rtakeWhile (p := (· == "")) (l := names)
  have lost : names.rtakeWhile (· == "") = [] ↔ names.getLast? ≠ some "" := by
    rcases names.eq_nil_or_concat' with rfl | ⟨front, last, rfl⟩ <;> simp [List.rtakeWhile_concat]
  have alone : names.rtakeWhile (· == "") = [""] ∧ names.rdropWhile (· == "") = [] ↔
      names = [""] := by
    constructor
    · rintro ⟨last, front⟩
      rw [← split, last, front, List.nil_append]
    · rintro rfl
      exact ⟨rfl, rfl⟩
  rw [← lost, ← alone, or_comm, ← ofNames_eq_append_right_iff, split]

end FieldPath

/-! ### where failures are located -/

/-- the encoder locates a text that holds a zero byte upwards -/
theorem Document.encode_located {d : Document} {names : List String}
    (first : (Value.document d).FirstNul names) (small : (Value.document d).wireSize < 2 ^ 31) :
    d.encode = .error (.located (root.under names) .interiorNul) := by
  rw [encode_eq_error_iff, payload_of_firstNul first small]
  exact congrArg _ (Error.under_located names root .interiorNul)

/-- the decoder locates a violation of the grammar upwards, or says that the whole is too large -/
theorem Config.decode_located {config : Config} {nesting : Nesting} {bs : Bytes}
    {names : List String} (wrong : WrongInput config nesting bs names) (shape : Shape) :
    (∃ fault, config.decode shape nesting bs = .error (.located (root.under names) fault)) ∨
      names = [] ∧ ∃ declared, config.decode shape nesting bs =
        .error (.documentTooLarge declared config.maxDocumentSize) := by
  obtain ⟨e, failed⟩ : ∃ e, config.decode shape nesting bs = .error e :=
    decode_fails_iff.2 ⟨names, wrong⟩
  rcases fields_error (decode_eq_error_iff.1 failed) with
    ⟨names', fault, rfl, -, wrong'⟩ | ⟨wrong', declared, rfl⟩
  · rw [Fault.error, Error.under_located, ← wrong.unique wrong'] at failed
    exact .inl ⟨fault, failed⟩
  · exact .inr ⟨wrong.unique wrong', declared, failed⟩

/-- records of one field in one another, down to a host record -/
def Host.nested (names : List String) (inner : Host) : Host :=
  names.foldr (fun name h => .record "" [(name, h)]) inner

/-- the projection of host records locates what has no value upwards -/
theorem Host.toValue_nested {inner : Host} {fault : Fault}
    (failed : inner.toValue = .error fault.error) (names : List String) :
    (Host.nested names inner).toValue = .error (.located (root.under names) fault) := by
  rw [← Error.under_located]
  induction names with
  | nil => exact failed
  | cons name rest ih =>
    show (fieldValues [(name, Host.nested rest inner)]).map _ = _
    rw [fieldValues, ih]
    rfl

/-- an attempt to reach locates a value that the target has no rule for at all names at once -/
theorem Target.reach_located {t : Target} {v found : Value} {names : List String}
    {content : t.Content} (leads : v.lookup names = .ok (some found))
    (failed : (v.reach t names content).1 ≠ .ok true) :
    (v.reach t names content).1 =
      .error (.located (ofNames names) (.cannotCoerce found.typeName t.name)) := by
  have refused : (assign (ofNames names) found t content).1 ≠ .ok () := by
    intro taken
    refine failed ?_
    rw [Value.reach, leads]
    show (assign _ _ _ _).1.map _ = _
    rw [taken]
    rfl
  rw [Value.reach, leads]
  show (assign _ _ _ _).1.map _ = _
  rw [(assign_of_failed refused).2.2]
  rfl

namespace FieldPath

/-- **When the ways to build a path agree**: downwards from the root the empty names in front are
lost, and upwards those at the end, so that the path is the join of all names only if there are
none, or if the list is one empty name alone. The encoder, the decoder and the projection of host
records locate a failure upwards, an attempt to reach at the join of all names: the two are the same
place only if the last name is not empty, or the only one. -/
theorem built_alike_iff (names : List String) :
    (root.below names = ofNames (names.dropWhile (· == "")) ∧
      (root.below names = ofNames names ↔ names = [""] ∨ names.head? ≠ some "")) ∧
    (root.under names = ofNames (names.rdropWhile (· == "")) ∧
      (root.under names = ofNames names ↔ names = [""] ∨ names.getLast? ≠ some "")) ∧
    (∀ d : Document, (Value.document d).FirstNul names → (Value.document d).wireSize < 2 ^ 31 →
      d.encode = .error (.located (root.under names) .interiorNul)) ∧
    (∀ (config : Config) nesting bs, WrongInput config nesting bs names → ∀ shape,
      (∃ fault, config.decode shape nesting bs = .error (.located (root.under names) fault)) ∨
        names = [] ∧ ∃ declared, config.decode shape nesting bs =
          .error (.documentTooLarge declared config.maxDocumentSize)) ∧
    (∀ (inner : Host) fault, inner.toValue = .error fault.error →
      (Host.nested names inner).toValue = .error (.located (root.under names) fault)) ∧
    ∀ (t : Target) (v found : Value) content, v.lookup names = .ok (some found) →
      (v.reach t names content).1 ≠ .ok true →
        (v.reach t names content).1 =
          .error (.located (ofNames names) (.cannotCoerce found.typeName t.name)) := by
  refine ⟨⟨below_root names, ?_⟩, ⟨under_root_eq names, ?_⟩,
    fun _ => Document.encode_located, fun _ _ _ => Config.decode_located,
    fun _ _ failed => Host.toValue_nested failed names, fun _ _ _ _ => Target.reach_located⟩
  · rw [below_root]
    exact ofNames_dropWhile_eq_iff
  · rw [under_root_eq]
    exact ofNames_rdropWhile_eq_iff

/-- a field with an empty name inside another, with an expression that cannot be written, and a
number that is no truth value -/
theorem built_alike_iff_last_empty :
    let d : Document := [("a", .document [("", .regex ⟨"\x00", ""⟩)])]
    let v : Value := .document [("a", .document [("", .int32 7)])]
    root.under ["a", ""] ≠ ofNames ["a", ""] ∧
      d.encode = .error (.located ⟨"a"⟩ .interiorNul) ∧
      (v.reach .bool ["a", ""] false).1 =
        .error (.located ⟨"a."⟩ (.cannotCoerce "Int32" "bool")) := by
  intro d v
  obtain ⟨-, ⟨-, up⟩, encodes, -, -, reaches⟩ := built_alike_iff ["a", ""]
  let inner : Value := .document [("", .regex ⟨"\x00", ""⟩)]
  have first : (Value.regex ⟨"\x00", ""⟩).FirstNul [] := .regex (.inl (by decide))
  have first : inner.FirstNul [""] :=
    @Value.FirstNul.inside _ _ [] [] [] "" [] rfl (List.forall_mem_nil _) (by decide) first
  have first : (Value.document d).FirstNul ["a", ""] :=
    @Value.FirstNul.inside _ _ [] [] [] "a" [""] rfl (List.forall_mem_nil _) (by decide) first
  have refused := reaches .bool v (.int32 7) false rfl nofun
  refine ⟨fun same => ?_, encodes d first (by decide), refused⟩
  rcases up.1 same with alone | last
  · exact absurd alone (by decide)
  · exact last rfl

/-- the same field, four times: at the join of its names, and where the encoder, the decoder and the
projection of host records locate it -/
theorem built_apart :
    let encoded : Document := [("a", .document [("", .regex ⟨"\x00", ""⟩)])]
    let decoded : Bytes := [16, 0, 0, 0, 3, 97, 0, 8, 0, 0, 0, 32, 0, 0, 0, 0]
    let record : Host := .record "" [("a", .record "" [("", .float32 (Double.ofInt 1))])]
    let reached : Value := .document [("a", .document [("", .int32 7)])]
    (ofNames ["a", ""] = ⟨"a."⟩ ∧ root.below ["a", ""] = ⟨"a."⟩ ∧ root.under ["a", ""] = ⟨"a"⟩) ∧
      (ofNames ["", "a"] = ⟨".a"⟩ ∧ root.below ["", "a"] = ⟨"a"⟩ ∧
        root.under ["", "a"] = ⟨".a"⟩) ∧
      (reached.reach .bool ["a", ""] false).1 =
        .error (.located ⟨"a."⟩ (.cannotCoerce "Int32" "bool")) ∧
      encoded.encode = .error (.located ⟨"a"⟩ .interiorNul) ∧
      Config.standard.decodeDocument .nested decoded =
        .error (.located ⟨"a"⟩ (.invalidElementType 32)) ∧
      record.toValue = .error (.located ⟨"a"⟩ (.unsupportedType "f32")) := by
  intro encoded decoded record reached
  exact ⟨⟨by decide, by decide, by decide⟩, ⟨by decide, by decide, by decide⟩, rfl, rfl, rfl, rfl⟩

end FieldPath

end Bson
