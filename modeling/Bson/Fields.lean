import Bson.Bytes

/-!
# Lists of named fields

A list of fields keeps its order and may repeat a name; a look-up takes the first field of the name.

* `Fields.get?`, `Fields.contains`, `Fields.names`  looking;
* `Fields.insert`, `Fields.set`, `Fields.erase`     replacing in place or adding at the end,
                                                    replacing only, taking the first field of a
                                                    name away;
* `Fields.remove?`      taking it away and keeping its value;
* `Fields.merge`        repeated names merged: the first place, the last value;
* `Fields.place`, `Fields.sorted`  the same in the order of the names' UTF-8 bytes, which gives
                        every set of named values one list (`Fields.Sorted`).

After `insert` and `place` the look-up of the name gives the value and that of any other name what
it gave before (`get?_insert`, `get?_place`).
-/

namespace Bson

abbrev Fields (α : Type) := List (String × α)

/-- whether a name comes before another, by the bytes of its UTF-8 form -/
def nameBefore (a b : String) : Bool := decide (utf8 a < utf8 b)

namespace Fields

variable {α : Type}

def names (fs : Fields α) : List String := fs.map Prod.fst

def values (fs : Fields α) : List α := fs.map Prod.snd

/-- the value of the first field of a name -/
def get? (name : String) : Fields α → Option α
  | [] => none
  | (k, v) :: rest => if k = name then some v else get? name rest

def contains (name : String) (fs : Fields α) : Bool := (get? name fs).isSome

/-- the first field of the name takes the value; where there is none, it is added at the end -/
def insert (name : String) (v : α) : Fields α → Fields α
  | [] => [(name, v)]
  | (k, w) :: rest => if k = name then (k, v) :: rest else (k, w) :: insert name v rest

/-- the first field of the name takes the value; where there is none, nothing changes -/
def set (name : String) (v : α) : Fields α → Fields α
  | [] => []
  | (k, w) :: rest => if k = name then (k, v) :: rest else (k, w) :: set name v rest

def erase (name : String) : Fields α → Fields α
  | [] => []
  | (k, w) :: rest => if k = name then rest else (k, w) :: erase name rest

def remove? (name : String) : Fields α → Option (α × Fields α)
  | [] => none
  | (k, w) :: rest =>
    if k = name then some (w, rest)
    else (remove? name rest).map fun taken => (taken.1, (k, w) :: taken.2)

/-- repeated names merged: each name stands where it first stood, with its last value -/
def merge (fs : Fields α) : Fields α := fs.foldl (fun acc f => insert f.1 f.2 acc) []

/-! ### lists in the order of the names -/

def place (name : String) (v : α) : Fields α → Fields α
  | [] => [(name, v)]
  | (k, w) :: rest =>
    if k = name then (k, v) :: rest
    else if nameBefore name k then (name, v) :: (k, w) :: rest
    else (k, w) :: place name v rest

/-- the last value of each name, in the order of the names -/
def sorted (fs : Fields α) : Fields α := fs.foldl (fun acc f => place f.1 f.2 acc) []

def Sorted (fs : Fields α) : Prop := fs.Pairwise fun f g => nameBefore f.1 g.1

@[simp] theorem get?_nil (name : String) : get? name ([] : Fields α) = none := rfl

theorem get?_eq_some_iff {name : String} {v : α} {fs : Fields α} :
    get? name fs = some v ↔
      ∃ before after, fs = before ++ (name, v) :: after ∧ name ∉ names before := by
  induction fs with
  | nil => exact ⟨nofun, fun ⟨before, after, h, _⟩ => absurd h (by simp)⟩
  | cons f rest ih =>
    rw [get?]
    by_cases same : f.1 = name
    · rw [if_pos same, Option.some.injEq]
      constructor
      · rintro rfl
        exact ⟨[], rest, by rw [← same]; rfl, nofun⟩
      · rintro ⟨before, after, h, first⟩
        cases before with
        | nil => exact congrArg Prod.snd (List.cons.inj h).1
        | cons g before =>
          rw [List.cons_append] at h
          rw [← (List.cons.inj h).1] at first
          exact absurd (List.mem_cons.2 (.inl same.symm)) first
    · rw [if_neg same, ih]
      constructor
      · rintro ⟨before, after, rfl, first⟩
        refine ⟨f :: before, after, rfl, fun there => ?_⟩
        exact (List.mem_cons.1 there).elim (Ne.symm same) first
      · rintro ⟨before, after, h, first⟩
        cases before with
        | nil => exact absurd (congrArg Prod.fst (List.cons.inj h).1) same
        | cons g before =>
          exact ⟨before, after, (List.cons.inj h).2, fun there => first (.tail _ there)⟩

/-- a field that takes a value holds it, and the others keep theirs -/
theorem get?_insert (key name : String) (v : α) (fs : Fields α) :
    get? key (insert name v fs) = if name = key then some v else get? key fs := by
  induction fs with
  | nil => rfl
  | cons f rest ih =>
    rw [insert]
    by_cases h : f.1 = name
    · rw [if_pos h, get?, get?, h]
      by_cases hk : name = key
      · rw [if_pos hk, if_pos hk]
      · rw [if_neg hk, if_neg hk, if_neg hk]
    · rw [if_neg h, get?, ih, get?]
      by_cases hk : f.1 = key
      · rw [if_pos hk, if_neg fun hn => h (hk.trans hn.symm), if_pos hk]
      · rw [if_neg hk, if_neg hk]

theorem get?_place (key name : String) (v : α) (fs : Fields α) :
    get? key (place name v fs) = if name = key then some v else get? key fs := by
  induction fs with
  | nil => rfl
  | cons f rest ih =>
    rw [place]
    by_cases h : f.1 = name
    · rw [if_pos h, get?, get?, h]
      by_cases hk : name = key
      · rw [if_pos hk, if_pos hk]
      · rw [if_neg hk, if_neg hk, if_neg hk]
    · rw [if_neg h]
      by_cases before : nameBefore name f.1
      · rw [if_pos before, get?]
      · rw [if_neg before, get?, ih, get?]
        by_cases hk : f.1 = key
        · rw [if_pos hk, if_neg fun hn => h (hk.trans hn.symm), if_pos hk]
        · rw [if_neg hk, if_neg hk]

/-- a name that is there keeps its place, a new one is added at the end -/
theorem names_insert (name : String) (v : α) (fs : Fields α) :
    names (insert name v fs) = if name ∈ names fs then names fs else names fs ++ [name] := by
  induction fs with
  | nil => rfl
  | cons f rest ih =>
    rw [insert]
    by_cases h : f.1 = name
    · have there : name ∈ names (f :: rest) := List.mem_cons.2 (.inl h.symm)
      rw [if_pos h, if_pos there]
      rfl
    · have skip : name ∈ names (f :: rest) ↔ name ∈ names rest :=
        List.mem_cons.trans (or_iff_right (Ne.symm h))
      rw [if_neg h]
      show f.1 :: names (insert name v rest) = _
      rw [ih]
      by_cases hm : name ∈ names rest
      · rw [if_pos hm, if_pos (skip.2 hm)]
        rfl
      · rw [if_neg hm, if_neg (mt skip.1 hm)]
        rfl

theorem remove?_eq (name : String) (fs : Fields α) :
    remove? name fs = (get? name fs).map fun v => (v, erase name fs) := by
  induction fs with
  | nil => rfl
  | cons f rest ih =>
    rw [remove?, get?, erase]
    by_cases h : f.1 = name
    · rw [if_pos h, if_pos h, if_pos h]
      rfl
    · rw [if_neg h, if_neg h, if_neg h, ih, Option.map_map]
      rfl

@[simp] theorem merge_nil : merge ([] : Fields α) = [] := rfl

@[simp] theorem sorted_nil : sorted ([] : Fields α) = [] := rfl

theorem sorted_concat (fs : Fields α) (name : String) (v : α) :
    sorted (fs ++ [(name, v)]) = place name v (sorted fs) := by simp [sorted]

theorem merge_concat (fs : Fields α) (name : String) (v : α) :
    merge (fs ++ [(name, v)]) = insert name v (merge fs) := by simp [merge]

example : merge [("a", 1), ("b", 2), ("a", 3)] = [("a", 3), ("b", 2)] := by decide
example : sorted [("b", 2), ("a", 1), ("b", 4)] = [("a", 1), ("b", 4)] := by decide

end Fields

end Bson
