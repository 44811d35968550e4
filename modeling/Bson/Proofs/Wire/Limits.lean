import Bson.Proofs.Wire.Acceptance
import Bson.Proofs.Wire.Simulation

/-!
# Limits only reject

With more levels to enter, a container is read as before, unless it was nested too deeply before
(`contents_of_le`). So a document that the grammar has is refused for its depth or read
(`contents_tooDeep`). Under a higher ceiling the front of an input is what it was, unless it was too
large before (`front_of_ceiling_le`); with both, decoding gives what it gave, unless it was refused
for a limit (`Config.decode_of_le`).
-/

namespace Bson

open Grammar

/-- the error of a document that nests deeper than the limit, wherever that was found -/
def TooDeep (limit : Nat) (e : Error) : Prop :=
  ∃ path, e = .located path (.invalidDocument (.nestedTooDeep limit))

theorem lifted_tooDeep (limit : Nat) : Lifted (TooDeep limit) := by
  intro name e h
  obtain ⟨path, rfl⟩ := h
  exact ⟨path.within name, rfl⟩

theorem elementsOf_followedBy_same {excused : Error → Prop} (lifted : Lifted excused)
    {inner inner' : Contents} (below : ∀ shape bs, FollowedBy excused id (inner shape bs)
      (inner' shape bs)) (order : ArrayOrder) (shape : Shape) (nesting : Nesting) (body : Bytes) :
    FollowedBy excused id (elementsOf (readTagged order shape nesting inner) body)
      (elementsOf (readTagged order shape nesting inner') body) := by
  have same : (Fields.mapValues id : Fields Value → Fields Value) = id := funext Fields.mapValues_id
  have followed : InnerFollowedBy excused id shape shape inner inner' :=
    ⟨fun bs => same ▸ below shape bs, below .document⟩
  rw [← same]
  exact elementsOf_followedBy lifted (Reader.followedBy_tagged lifted (.id shape) followed) body

theorem contents_of_le {config config' : Config} (order : config.arrayOrder = config'.arrayOrder)
    {levels levels' : Nat} (h : levels ≤ levels') (shape : Shape) (bs : Bytes) :
    FollowedBy (TooDeep config.maxNestingDepth) id
      (contents config levels shape bs) (contents config' levels' shape bs) := by
  -- a level that may be entered before may be entered afterwards; below it the induction goes on
  induction levels generalizing levels' shape bs with
  | zero => exact .inl ⟨_, ⟨_, rfl⟩, rfl⟩
  | succ levels ih =>
    cases levels' with
    | zero => exact absurd h (Nat.not_succ_le_zero _)
    | succ levels' =>
      rw [contents, contents, ← order]
      exact elementsOf_followedBy_same (lifted_tooDeep _) (ih (Nat.le_of_succ_le_succ h)) ..

theorem contents_tooDeep {config : Config} {levels : Nat} {bs : Bytes} {fs : Fields Value}
    (h : IsDocument config.arrayOrder bs fs) (deep : levels < Document.depth fs) :
    ∃ e, TooDeep config.maxNestingDepth e ∧ contents config levels .document bs = .error e := by
  have read : contents config (Document.depth fs) .document bs = .ok fs :=
    (contents_eq_ok_iff h.delimited).2 ⟨h, Nat.le_refl _⟩
  rcases contents_of_le (Eq.refl config.arrayOrder) (Nat.le_of_lt deep) .document bs with h1 | h1
  · exact h1
  · rw [read] at h1
    obtain ⟨fs', hfs, rfl⟩ := Except.map_eq_ok_iff.1 h1.symm
    have shallow := ((contents_eq_ok_iff h.delimited).1 hfs).2
    exact absurd deep (Nat.not_lt.2 shallow)

/-! ### whole inputs -/

theorem declaredLength_of_ceiling_le {ceiling ceiling' : Nat} (h : ceiling ≤ ceiling') (n : Int32) :
    (∃ declared, ceiling < declared ∧
      declaredLength ceiling n = .error (.documentTooLarge declared ceiling)) ∨
    declaredLength ceiling n = declaredLength ceiling' n := by
  unfold declaredLength
  by_cases small : n.toInt < Reader.smallestDocument
  · rw [if_pos small, if_pos small]
    exact .inr rfl
  rw [if_neg small, if_neg small]
  by_cases large : ceiling < n.toInt.toNat
  · rw [if_pos large]
    exact .inl ⟨_, large, rfl⟩
  · rw [if_neg large, if_neg (by omega)]
    exact .inr rfl

theorem front_of_ceiling_le {ceiling ceiling' : Nat} (h : ceiling ≤ ceiling') (bs : Bytes) :
    (∃ declared, ceiling < declared ∧
      front ceiling bs = .error (.documentTooLarge declared ceiling)) ∨
    front ceiling bs = front ceiling' bs := by
  unfold front
  cases Reader.int32.result bs with
  | error e => exact .inr rfl
  | ok n =>
    show (∃ declared, _ ∧ (declaredLength ceiling n >>= _) = _) ∨
      (declaredLength ceiling n >>= _) = (declaredLength ceiling' n >>= _)
    rcases declaredLength_of_ceiling_le h n with ⟨declared, large, refused⟩ | same
    · rw [refused]
      exact .inl ⟨declared, large, rfl⟩
    · rw [same]
      exact .inr rfl

namespace Config

variable {config config' : Config}

theorem fields_of_le (order : config.arrayOrder = config'.arrayOrder)
    (size : config.maxDocumentSize ≤ config'.maxDocumentSize)
    (depth : config.maxNestingDepth ≤ config'.maxNestingDepth) (shape : Shape) (nesting : Nesting)
    (bs : Bytes) :
    (∃ declared, config.maxDocumentSize < declared ∧ config.fields shape nesting bs =
      .error (.documentTooLarge declared config.maxDocumentSize)) ∨
    FollowedBy (TooDeep config.maxNestingDepth) id (config.fields shape nesting bs)
      (config'.fields shape nesting bs) := by
  rw [fields_eq, fields_eq, ← order]
  rcases front_of_ceiling_le size bs with ⟨declared, large, refused⟩ | same
  · rw [refused]
    exact .inl ⟨declared, large, rfl⟩
  rw [← same]
  cases front config.maxDocumentSize bs with
  | error e => exact .inr (.inr rfl)
  | ok p =>
    -- the containers below the front may be entered as deep as the limit says, less one
    have below := contents_of_le order (Nat.sub_le_sub_right depth 1)
    exact .inr (elementsOf_followedBy_same (lifted_tooDeep _) below ..)

/-- **Limits only reject**: whatever a decoder with lower limits gives, in either shape and either
nesting mode, is the refusal of a document above its ceiling, the refusal of one that nests beyond
its limit, or exactly what a decoder with higher limits gives, be that a document or an error. -/
theorem decode_of_le (order : config.arrayOrder = config'.arrayOrder)
    (size : config.maxDocumentSize ≤ config'.maxDocumentSize)
    (depth : config.maxNestingDepth ≤ config'.maxNestingDepth) (shape : Shape) (nesting : Nesting)
    (bs : Bytes) :
    (∃ declared, config.maxDocumentSize < declared ∧ config.decode shape nesting bs =
      .error (.documentTooLarge declared config.maxDocumentSize)) ∨
    (∃ path, config.decode shape nesting bs =
      .error (.located path (.invalidDocument (.nestedTooDeep config.maxNestingDepth)))) ∨
    config.decode shape nesting bs = config'.decode shape nesting bs := by
  unfold decode
  rcases fields_of_le order size depth shape nesting bs with
    ⟨declared, large, refused⟩ | ⟨_, ⟨path, rfl⟩, refused⟩ | same
  · rw [refused]
    exact .inl ⟨declared, large, rfl⟩
  · rw [refused]
    exact .inr (.inl ⟨path, rfl⟩)
  · rw [same]
    right; right
    cases config.fields shape nesting bs <;> rfl

/-- an unknown tag in an embedded document, found where the limits let it be reached -/
theorem decode_of_le_unknown_tag :
    let bs : Bytes := [16, 0, 0, 0, 3, 97, 0, 8, 0, 0, 0, 32, 98, 0, 0, 0]
    let found : Error := .located (.ofNames ["a", "b"]) (.invalidElementType 32)
    (Config.mk 15 2 .numeric).decode .map .nested bs = .error (.documentTooLarge 16 15) ∧
      (Config.mk 16 1 .numeric).decode .map .nested bs =
        .error (.located (.ofNames ["a"]) (.invalidDocument (.nestedTooDeep 1))) ∧
      (Config.mk 16 2 .numeric).decode .map .nested bs = .error found ∧
      Config.standard.decode .map .nested bs = .error found := by
  intro bs found
  let low := Config.mk 16 2 .numeric
  have here : low.decode .map .nested bs = .error found := rfl
  have above := @decode_of_le low .standard rfl (by decide) (by decide) .map .nested bs
  rw [here] at above
  refine ⟨rfl, rfl, here, ?_⟩
  rcases above with ⟨_, _, tooLarge⟩ | ⟨_, tooDeep⟩ | same
  · injection tooLarge
  · injection tooDeep
  · exact same.symm

end Config

end Bson
