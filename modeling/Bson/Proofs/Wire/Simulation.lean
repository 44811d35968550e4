import Bson.Proofs.Wire.Decoding

/-!
# Two runs side by side

A run of the decoder is followed by another (`FollowedBy`) if the other gives the same, with a
function at the result where there is one, except that nothing is said where the first fails for a
reason that is excused. Readers are followed part by part (`Reader.FollowedBy.bind`), and so

* `Reader.followedBy_payload`   payloads, if the containers inside them are followed, by a function
                        of values that goes through arrays as the shapes do (`Recasts`);
* `elementsOf_followedBy`  the elements of a document, if their payloads are.
-/

namespace Bson

open Grammar

variable {α β γ δ : Type}

/-- `y` is `x` with `f` at the result, unless `x` fails for a reason that is excused -/
def FollowedBy (excused : Error → Prop) (f : α → β) (x : Except Error α) (y : Except Error β) :
    Prop :=
  (∃ e, excused e ∧ x = .error e) ∨ y = x.map f

/-- the same at every input, with the same bytes left -/
def Reader.FollowedBy (excused : Error → Prop) (f : α → β) (r : Reader α) (s : Reader β) : Prop :=
  ∀ input, (∃ e left, excused e ∧ r input = .error e left) ∨ s input = (f <$> r) input

/-- what is excused at one level is excused one level up -/
def Lifted (excused : Error → Prop) : Prop := ∀ name e, excused e → excused (e.within name)

theorem lifted_none : Lifted fun _ => False := fun _ _ h => h

variable {excused : Error → Prop} {f : α → β}

/-! ### results -/

theorem FollowedBy.of_eq (x : Except Error α) : FollowedBy excused id x x := by
  right
  cases x <;> rfl

theorem FollowedBy.map {x : Except Error α} {y : Except Error β} (h : FollowedBy excused f x y)
    {g : α → γ} {k : β → δ} {m : γ → δ} (hm : ∀ a, m (g a) = k (f a)) :
    FollowedBy excused m (x.map g) (y.map k) := by
  rcases h with ⟨e, he, rfl⟩ | rfl
  · exact .inl ⟨e, he, rfl⟩
  · right
    cases x with
    | error e => rfl
    | ok a => exact congrArg Except.ok (hm a).symm

theorem FollowedBy.inField (closed : Lifted excused) (name : String)
    {x : Except Error α} {y : Except Error β} (h : FollowedBy excused f x y) :
    FollowedBy excused f (inField name x) (inField name y) := by
  rcases h with ⟨e, he, rfl⟩ | rfl
  · exact .inl ⟨e.within name, closed name e he, rfl⟩
  · right
    cases x <;> rfl

/-! ### readers -/

namespace Reader

/-- a reader that gives what `f` leaves alone follows itself -/
theorem followedBy_of_fixed {f : α → α} {r : Reader α}
    (h : ∀ input a rest, r input = .ok a rest → f a = a) : r.FollowedBy excused f r := by
  intro input
  right
  rw [EStateM.map_apply]
  cases hr : r input with
  | ok a rest =>
    show _ = EStateM.Result.ok (f a) rest
    rw [h input a rest hr]
  | error e rest => rfl

theorem FollowedBy.bind {r : Reader α} {s : Reader β} (h : r.FollowedBy excused f s)
    {k : α → Reader γ} {l : β → Reader δ} {g : γ → δ}
    (hk : ∀ a, (k a).FollowedBy excused g (l (f a))) :
    (r >>= k).FollowedBy excused g (s >>= l) := by
  intro input
  rcases h input with ⟨e, left, he, hr⟩ | hs
  · left
    exact ⟨e, left, he, by rw [EStateM.bind_apply, hr]⟩
  rw [EStateM.map_apply] at hs
  rw [EStateM.map_apply, EStateM.bind_apply, EStateM.bind_apply, hs]
  cases r input with
  | error e left => exact .inr rfl
  | ok a left =>
    rcases hk a left with ⟨e, left', he, hr⟩ | hl
    · exact .inl ⟨e, left', he, hr⟩
    · right
      rw [EStateM.map_apply] at hl
      exact hl

theorem followedBy_lift {x : Except Error α} {y : Except Error β}
    (h : Bson.FollowedBy excused f x y) : (lift x).FollowedBy excused f (lift y) := by
  intro input
  rcases h with ⟨e, he, rfl⟩ | rfl
  · exact .inl ⟨e, input, he, rfl⟩
  · right
    rw [EStateM.map_apply]
    cases x <;> rfl

theorem followedBy_self (r : Reader α) : r.FollowedBy excused id r :=
  followedBy_of_fixed fun _ _ _ _ => rfl

end Reader

/-! ### payloads -/

/-- a function of values that takes what is read in one shape to what is read in another: it changes
embedded documents, and goes through arrays -/
structure Recasts (f : Value → Value) (shape shape' : Shape) : Prop where
  scalar : ∀ {t bs v}, IsScalar t bs v → f v = v
  raw : ∀ doc, f (.raw doc) = .raw doc
  scope : ∀ code fs, f (.codeWithScope code fs) = .codeWithScope code fs
  array : ∀ items, f (.array items) = .array (items.map f)
  embedded : ∀ fs, f (shape.wrap fs) = shape'.wrap (fs.mapValues f)

theorem Recasts.id (shape : Shape) : Recasts id shape shape where
  scalar _ := rfl
  raw _ := rfl
  scope _ _ := rfl
  array items := by rw [List.map_id]; rfl
  embedded fs := by rw [Fields.mapValues_id]; rfl

/-- containers one level down are followed: embedded documents and arrays in their shape, scopes as
documents -/
structure InnerFollowedBy (excused : Error → Prop) (f : Value → Value) (shape shape' : Shape)
    (inner inner' : Contents) : Prop where
  embedded : ∀ bs, FollowedBy excused (Fields.mapValues f) (inner shape bs) (inner' shape' bs)
  scope : ∀ bs, FollowedBy excused id (inner .document bs) (inner' .document bs)

section

variable {order : ArrayOrder} {shape shape' : Shape} {nesting : Nesting} {inner inner' : Contents}
  {f : Value → Value}

theorem readPayload_scalar {t : ElementType} (h : t.isContainer = false) :
    readPayload order shape nesting inner t = readPayload order shape' nesting inner' t := by
  cases t <;> first | rfl | cases h

theorem Reader.followedBy_codeWithScope (closed : Lifted excused)
    (recasts : Recasts f shape shape')
    (h : ∀ bs, Bson.FollowedBy excused id (inner .document bs) (inner' .document bs)) :
    (readCodeWithScope inner).FollowedBy excused f (readCodeWithScope inner') := by
  intro start
  refine ((followedBy_self int32).bind fun total => ?_) start
  show FollowedBy _ _ (if _ then _ else _) (if _ then _ else _)
  by_cases small : total.toInt < 8 + smallestDocument
  · rw [id, if_pos small, if_pos small]
    exact followedBy_of_fixed fun _ _ _ h => by cases h
  rw [id, if_neg small, if_neg small]
  refine (followedBy_self string).bind fun code => (followedBy_self documentBytes).bind fun bs =>
    (followedBy_lift ((h bs).inField closed "Scope")).bind fun fs => ?_
  refine followedBy_of_fixed fun rest v left h => ?_
  split at h
  · injection h with h1
    rw [← h1]
    exact recasts.scope _ _
  · cases h

theorem Reader.followedBy_payload (closed : Lifted excused)
    (recasts : Recasts f shape shape') (h : InnerFollowedBy excused f shape shape' inner inner')
    (t : ElementType) :
    (readPayload order shape nesting inner t).FollowedBy excused f
      (readPayload order shape' nesting inner' t) := by
  cases ht : t.isContainer with
  | false =>
    have same :
        readPayload order shape' nesting inner' t = readPayload order shape nesting inner t :=
      readPayload_scalar ht
    rw [same]
    refine followedBy_of_fixed fun input v rest hv => ?_
    obtain ⟨bs, -, hs⟩ := (accepts_scalar ht _ _ _).1 hv
    exact recasts.scalar hs
  | true =>
    cases t with
    | embeddedDocument =>
      refine (followedBy_self documentBytes).bind fun bs => ?_
      cases nesting with
      | nested => exact followedBy_lift ((h.embedded bs).map recasts.embedded)
      | noNest =>
        refine followedBy_of_fixed fun input v rest hv => ?_
        obtain ⟨-, -, -, hv⟩ := (accepts_lift _ _ _ _).1 hv
        obtain ⟨doc, -, rfl⟩ := Except.map_eq_ok_iff.1 hv
        exact recasts.raw doc
    | array =>
      refine (followedBy_self documentBytes).bind fun bs =>
        followedBy_lift ((h.embedded bs).map fun fs => ?_)
      rw [recasts.array, ArrayOrder.sort_mapValues]
    | codeWithScope => exact followedBy_codeWithScope closed recasts h.scope
    | _ => cases ht

theorem Reader.followedBy_tagged (closed : Lifted excused)
    (recasts : Recasts f shape shape') (h : InnerFollowedBy excused f shape shape' inner inner')
    (tag : UInt8) :
    (readTagged order shape nesting inner tag).FollowedBy excused f
      (readTagged order shape' nesting inner' tag) := by
  unfold readTagged
  cases ElementType.ofTag? tag with
  | some t => exact followedBy_payload closed recasts h t
  | none => exact followedBy_of_fixed fun _ _ _ h => by cases h

end

/-! ### elements -/

theorem readElements_followedBy (closed : Lifted excused)
    {f : Value → Value} {payload payload' : UInt8 → Reader Value}
    (h : ∀ tag, (payload tag).FollowedBy excused f (payload' tag)) (fuel : Nat) (body : Bytes) :
    FollowedBy excused (Fields.mapValues f) (readElements payload fuel body)
      (readElements payload' fuel body) := by
  induction fuel generalizing body with
  | zero => exact .inr rfl
  | succ fuel ih =>
    cases body with
    | nil => exact .inr rfl
    | cons tag rest =>
      rw [readElements, readElements]
      by_cases ht : tag = 0
      · rw [if_pos ht, if_pos ht]
        right
        split <;> rfl
      rw [if_neg ht, if_neg ht]
      cases Reader.cstring rest with
      | error e left => exact .inr rfl
      | ok name left =>
        have hv := h tag left
        rw [EStateM.map_apply] at hv
        dsimp only
        cases hp : payload tag left with
        | error e left' =>
          rw [hp] at hv
          rcases hv with ⟨e', _, he, h1⟩ | h1
          · injection h1 with h1
            exact .inl ⟨e.within name, closed name e (h1 ▸ he), rfl⟩
          · rw [h1]
            exact .inr rfl
        | ok v left' =>
          rw [hp] at hv
          rcases hv with ⟨e', _, he, h1⟩ | h1
          · cases h1
          · rw [h1]
            exact (ih left').map fun more => rfl

theorem elementsOf_followedBy (closed : Lifted excused)
    {f : Value → Value} {payload payload' : UInt8 → Reader Value}
    (h : ∀ tag, (payload tag).FollowedBy excused f (payload' tag)) (body : Bytes) :
    FollowedBy excused (Fields.mapValues f) (elementsOf payload body) (elementsOf payload' body) :=
  readElements_followedBy closed h _ body

end Bson
