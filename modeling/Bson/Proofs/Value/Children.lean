import Bson.Value

/-!
# Values from the outside in

* `Value.children`      the values that stand directly inside a value;
* `Value.childInduction`  a property that passes from the children of a value to the value holds of
                        every value;
* `Value.depth`, `Document.depth`  how deep containers nest: a document counts one, and each
                        embedded document, array or scope one more; bytes that were not read count
                        nothing;
* `Value.everywhere`    whether a property holds of a value and of all values inside it;
* `Value.plain`         whether a value holds no map and no bytes that were not read.

Depth and `everywhere` are computed field by field; the lemmas say them of members
(`depthOfFields_le_iff`, `everywhereInFields_iff`), so that the order of the fields no longer
matters.
-/

namespace Bson

namespace Value

def children : Value → List Value
  | document fs | map fs | codeWithScope _ fs => fs.map Prod.snd
  | array items => items
  | _ => []

theorem mem_children_of_fields {v : Value} {fs : Fields Value} (h : v.children = fs.map Prod.snd)
    {f : String × Value} (hf : f ∈ fs) : f.2 ∈ v.children := by
  rw [h]
  exact List.mem_map_of_mem hf

theorem sizeOf_lt_of_mem_children {v w : Value} (h : w ∈ v.children) : sizeOf w < sizeOf v := by
  have field : ∀ fs : Fields Value, w ∈ fs.map Prod.snd → sizeOf w < sizeOf fs := by
    intro fs hw
    obtain ⟨f, hf, rfl⟩ := List.mem_map.1 hw
    have h1 := List.sizeOf_lt_of_mem hf
    obtain ⟨name, v⟩ := f
    simp only [Prod.mk.sizeOf_spec] at h1
    show sizeOf v < _
    omega
  cases v with
  | document fs | map fs =>
    have h1 := field fs h
    simp only [document.sizeOf_spec, map.sizeOf_spec]
    omega
  | codeWithScope code fs =>
    have h1 := field fs h
    simp only [codeWithScope.sizeOf_spec]
    omega
  | array items =>
    have h1 := List.sizeOf_lt_of_mem (show w ∈ items from h)
    simp only [array.sizeOf_spec]
    omega
  | _ => exact absurd h (by simp [children])

/-- what passes from the children of a value to the value holds of every value -/
@[elab_as_elim]
theorem childInduction {motive : Value → Prop}
    (step : ∀ v, (∀ w ∈ v.children, motive w) → motive v) (v : Value) : motive v :=
  step v fun w hw =>
    have := sizeOf_lt_of_mem_children hw
    childInduction step w
termination_by sizeOf v

/-! ### depth -/

mutual

/-- how deep the containers of a value nest -/
def depth : Value → Nat
  | document fs | map fs | codeWithScope _ fs => depthOfFields fs + 1
  | array items => depthOfItems items + 1
  | _ => 0

def depthOfFields : List (String × Value) → Nat
  | [] => 0
  | (_, v) :: rest => max v.depth (depthOfFields rest)

def depthOfItems : List Value → Nat
  | [] => 0
  | v :: rest => max v.depth (depthOfItems rest)

end

theorem depthOfFields_le_iff {fs : Fields Value} {n : Nat} :
    depthOfFields fs ≤ n ↔ ∀ f ∈ fs, f.2.depth ≤ n := by
  induction fs with
  | nil => simp [depthOfFields]
  | cons f rest ih => rw [depthOfFields, Nat.max_le, ih, List.forall_mem_cons]

theorem depthOfItems_le_iff {items : List Value} {n : Nat} :
    depthOfItems items ≤ n ↔ ∀ v ∈ items, v.depth ≤ n := by
  induction items with
  | nil => simp [depthOfItems]
  | cons v rest ih => rw [depthOfItems, Nat.max_le, ih, List.forall_mem_cons]

theorem depth_array_le_of_perm {fs gs : Fields Value} (h : gs.Perm fs) {n : Nat} :
    (array (gs.map Prod.snd)).depth ≤ n ↔ depthOfFields fs + 1 ≤ n := by
  cases n with
  | zero => simp [depth]
  | succ n =>
    rw [depth, Nat.add_le_add_iff_right, Nat.add_le_add_iff_right, depthOfItems_le_iff,
      depthOfFields_le_iff, List.forall_mem_map]
    exact ⟨fun hn f hf => hn f (h.mem_iff.2 hf), fun hn f hf => hn f (h.mem_iff.1 hf)⟩

/-! ### properties of all values inside -/

mutual

/-- whether `p` holds of a value and of every value inside it -/
def everywhere (p : Value → Bool) : Value → Bool
  | document fs => p (document fs) && everywhereInFields p fs
  | map fs => p (map fs) && everywhereInFields p fs
  | codeWithScope code fs => p (codeWithScope code fs) && everywhereInFields p fs
  | array items => p (array items) && everywhereInItems p items
  | v => p v

def everywhereInFields (p : Value → Bool) : List (String × Value) → Bool
  | [] => true
  | (_, v) :: rest => v.everywhere p && everywhereInFields p rest

def everywhereInItems (p : Value → Bool) : List Value → Bool
  | [] => true
  | v :: rest => v.everywhere p && everywhereInItems p rest

end

theorem everywhereInFields_iff {p : Value → Bool} {fs : Fields Value} :
    everywhereInFields p fs ↔ ∀ f ∈ fs, f.2.everywhere p := by
  induction fs with
  | nil => simp [everywhereInFields]
  | cons f rest ih => rw [everywhereInFields, Bool.and_eq_true, ih, List.forall_mem_cons]

theorem everywhereInItems_iff {p : Value → Bool} {items : List Value} :
    everywhereInItems p items ↔ ∀ v ∈ items, v.everywhere p := by
  induction items with
  | nil => simp [everywhereInItems]
  | cons v rest ih => rw [everywhereInItems, Bool.and_eq_true, ih, List.forall_mem_cons]

/-- a property holds everywhere in a value if it holds of the value, and everywhere in its
children -/
theorem everywhere_iff {p : Value → Bool} {v : Value} :
    v.everywhere p ↔ p v ∧ ∀ w ∈ v.children, w.everywhere p := by
  cases v with
  | document fs | map fs | codeWithScope code fs =>
    rw [everywhere, Bool.and_eq_true, everywhereInFields_iff, children, List.forall_mem_map]
  | array items => rw [everywhere, Bool.and_eq_true, everywhereInItems_iff, children]
  | _ => simp [everywhere, children]

theorem everywhere_imp {p q : Value → Bool} (follows : ∀ v, p v → q v) {v : Value}
    (h : v.everywhere p) : v.everywhere q := by
  induction v using childInduction with
  | step v ih =>
    obtain ⟨here, inside⟩ := everywhere_iff.1 h
    exact everywhere_iff.2 ⟨follows v here, fun w hw => ih w hw (inside w hw)⟩

theorem everywhere_and {p q : Value → Bool} {v : Value} (hp : v.everywhere p)
    (hq : v.everywhere q) : v.everywhere fun w => p w && q w := by
  induction v using childInduction with
  | step v ih =>
    obtain ⟨here, inside⟩ := everywhere_iff.1 hp
    obtain ⟨here', inside'⟩ := everywhere_iff.1 hq
    refine everywhere_iff.2 ⟨?_, fun w hw => ih w hw (inside w hw) (inside' w hw)⟩
    rw [here, here']
    rfl

/-- whether a value holds no map and no bytes that were not read -/
def plain : Value → Bool :=
  everywhere fun
    | map _ | raw _ => false
    | _ => true

end Value

/-- how deep a document nests, where the document itself counts one -/
def Document.depth (d : Document) : Nat := (Value.document d).depth

def Document.plain (d : Document) : Bool := (Value.document d).plain

example : Document.depth [("a", .array [.codeWithScope "" []]), ("b", .null)] = 3 := by decide

end Bson
