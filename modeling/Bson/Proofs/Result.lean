import Bson.Error

/-!
# Results

When a composed result is a success: `Except.map_eq_ok_iff`, `Except.bind_eq_ok_iff`,
`inField_eq_ok_iff`, and when a failure: `Except.map_eq_error_iff`, `Except.bind_eq_error_iff`,
`inField_eq_error_iff`; and what composed steps with a state give: `EStateM.bind_apply`,
`EStateM.bind_of_ok`, `EStateM.map_apply`, `EStateM.bind_eq_ok_iff`, `EStateM.bind_eq_error_iff`,
`EStateM.map_eq_ok_iff`, `EStateM.map_eq_error_iff`.
-/

namespace Bson

variable {ε α β : Type}

theorem Except.map_eq_ok_iff {f : α → β} {x : Except ε α} {b : β} :
    x.map f = .ok b ↔ ∃ a, x = .ok a ∧ f a = b := by
  cases x <;> simp [Except.map]

theorem Except.map_eq_error_iff {f : α → β} {x : Except ε α} {e : ε} :
    x.map f = .error e ↔ x = .error e := by
  cases x <;> simp [Except.map]

theorem Except.bind_eq_ok_iff {f : α → Except ε β} {x : Except ε α} {b : β} :
    x >>= f = .ok b ↔ ∃ a, x = .ok a ∧ f a = .ok b := by
  cases x <;> simp [bind, Except.bind]

theorem Except.bind_eq_error_iff {f : α → Except ε β} {x : Except ε α} {e : ε} :
    x >>= f = .error e ↔ x = .error e ∨ ∃ a, x = .ok a ∧ f a = .error e := by
  cases x <;> simp [bind, Except.bind]

theorem inField_eq_ok_iff {name : String} {result : Except Error α} {a : α} :
    inField name result = .ok a ↔ result = .ok a := by
  cases result <;> simp [inField]

theorem inField_eq_error_iff {name : String} {result : Except Error α} {e : Error} :
    inField name result = .error e ↔ ∃ e', result = .error e' ∧ e = e'.within name := by
  cases result <;> simp [inField, eq_comm]

/-! ### steps with a state -/

section

variable {σ : Type}

theorem EStateM.bind_apply (x : EStateM ε σ α) (f : α → EStateM ε σ β) (s : σ) :
    (x >>= f) s = match x s with
      | .ok a s' => f a s'
      | .error e s' => .error e s' := by
  show EStateM.bind x f s = _
  rw [EStateM.bind]
  cases x s <;> rfl

theorem EStateM.map_apply (f : α → β) (x : EStateM ε σ α) (s : σ) :
    (f <$> x) s = match x s with
      | .ok a s' => .ok (f a) s'
      | .error e s' => .error e s' := by
  show EStateM.map f x s = _
  rw [EStateM.map]
  cases x s <;> rfl

theorem EStateM.bind_of_ok {x : EStateM ε σ α} {s t : σ} {a : α} (h : x s = .ok a t)
    (f : α → EStateM ε σ β) : (x >>= f) s = f a t := by
  rw [bind_apply, h]

theorem EStateM.bind_eq_ok_iff {x : EStateM ε σ α} {f : α → EStateM ε σ β} {s s' : σ} {b : β} :
    (x >>= f) s = .ok b s' ↔ ∃ a t, x s = .ok a t ∧ f a t = .ok b s' := by
  rw [bind_apply]
  cases x s with
  | error e t => exact ⟨nofun, nofun⟩
  | ok a t =>
    constructor
    · exact fun h => ⟨a, t, rfl, h⟩
    · rintro ⟨_, _, ⟨⟩, h⟩
      exact h

theorem EStateM.bind_eq_error_iff {x : EStateM ε σ α} {f : α → EStateM ε σ β} {s s' : σ} {e : ε} :
    (x >>= f) s = .error e s' ↔ x s = .error e s' ∨ ∃ a t, x s = .ok a t ∧ f a t = .error e s' := by
  rw [bind_apply]
  cases x s with
  | error e' t =>
    constructor
    · intro h
      injection h with same left
      exact .inl (by rw [same, left])
    · rintro (h | ⟨_, _, h, _⟩)
      · injection h with same left
        rw [same, left]
      · cases h
  | ok a t =>
    constructor
    · exact fun h => .inr ⟨a, t, rfl, h⟩
    · rintro (h | ⟨_, _, ⟨⟩, h⟩)
      · cases h
      · exact h

theorem EStateM.map_eq_ok_iff {f : α → β} {x : EStateM ε σ α} {s s' : σ} {b : β} :
    (f <$> x) s = .ok b s' ↔ ∃ a, x s = .ok a s' ∧ f a = b := by
  rw [map_apply]
  cases x s with
  | error e t => exact ⟨nofun, nofun⟩
  | ok a t =>
    constructor
    · rintro ⟨⟩
      exact ⟨a, rfl, rfl⟩
    · rintro ⟨_, ⟨⟩, rfl⟩
      rfl

theorem EStateM.map_eq_error_iff {f : α → β} {x : EStateM ε σ α} {s s' : σ} {e : ε} :
    (f <$> x) s = .error e s' ↔ x s = .error e s' := by
  rw [map_apply]
  cases x s with
  | error e' t => exact ⟨fun h => by injection h with h1 h2; rw [h1, h2],
      fun h => by injection h with h1 h2; rw [h1, h2]⟩
  | ok a t => exact ⟨nofun, nofun⟩

end

end Bson
