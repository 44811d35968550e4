import Bson.Proofs.Fields.Merged
import Bson.Value

/-!
# Documents and maps made of each other

A map is walked in some order of its own, here any permutation of its fields. Made a document, its
fields stand in the order of their names.

* `Fields.mem_names_sorted`  a document keeps all its names as a map;
* `Fields.sorted_congr`  fields of different names are sorted alike, however they stand;
* `DocumentMap.conversion_sorts`  there and back, the conversions are one sort: neither the order in
                        which a map is walked nor that of different names in a document is seen.
-/

namespace Bson

namespace Fields

variable {α : Type} {name : String} {fs gs : Fields α}

theorem mem_names_sorted : name ∈ names (sorted fs) ↔ name ∈ names fs := by
  have reversed : names fs.reverse = (names fs).reverse := List.map_reverse
  have missing : name ∉ names (sorted fs) ↔ name ∉ names fs := by
    rw [← get?_eq_none_iff, get?_sorted, last?_eq_get?_reverse, get?_eq_none_iff, reversed,
      List.mem_reverse]
  exact not_iff_not.1 missing

theorem sorted_congr (distinct : (names fs).Nodup) (order : gs.Perm fs) : sorted gs = sorted fs :=
  sorted_eq_of_perm (sorted_strict fs) (order.trans (sorted_perm distinct).symm)

end Fields

namespace DocumentMap

open Fields

/-- **The conversions sort**: a map, walked in any order, becomes the document of its fields with
names that strictly increase, and comes back from it. A document becomes the map of its names, each
with its last value. Turned into a map and back, it does not change any further, and documents of
different names that are permutations of each other become the same. -/
theorem conversion_sorts :
    (∀ m walk : DocumentMap, Sorted m → walk.Perm m →
      Sorted walk.toDocument ∧ walk.toDocument.Perm m ∧ Document.toMap walk.toDocument = m) ∧
    (∀ d : Document, Sorted d.toMap ∧ (∀ name, name ∈ names d.toMap ↔ name ∈ names d) ∧
      ∀ name v, get? name d.toMap = some v ↔
        ∃ before after, d = before ++ (name, v) :: after ∧ name ∉ names after) ∧
    (∀ (d : Document) (walk again : DocumentMap), walk.Perm d.toMap →
      again.Perm (Document.toMap walk.toDocument) → again.toDocument = walk.toDocument) ∧
    (∀ (d e : Document) (walk again : DocumentMap), (names d).Nodup → e.Perm d →
      walk.Perm d.toMap → again.Perm e.toMap → again.toDocument = walk.toDocument) := by
  have sorts {m walk : DocumentMap} (ordered : Sorted m) (order : walk.Perm m) :
      walk.toDocument = m := sorted_eq_of_perm ordered order
  have kept {m : DocumentMap} (ordered : Sorted m) : Document.toMap m = m :=
    sorted_eq_of_perm ordered (.refl m)
  refine ⟨?_, ?_, ?_, ?_⟩
  · intro m walk ordered order
    rw [sorts ordered order]
    exact ⟨ordered, .refl m, kept ordered⟩
  · intro d
    refine ⟨sorted_strict d, fun _ => mem_names_sorted, fun name v => ?_⟩
    rw [Document.toMap, get?_sorted, last?_eq_some_iff]
  · intro d walk again order order'
    have first := sorts (sorted_strict d) order
    rw [first] at order' ⊢
    rw [kept (sorted_strict d)] at order'
    exact sorts (sorted_strict d) order'
  · intro d e walk again distinct same order order'
    rw [sorts (sorted_strict d) order, sorts (sorted_strict e) order']
    exact sorted_congr distinct same

/-- a map walked against the order of its names, and two orders of a document -/
theorem conversion_sorts_two_names :
    let m : DocumentMap := [("a", .null), ("b", .undefined)]
    (Sorted m ∧ m.reverse.Perm m ∧ DocumentMap.toDocument m.reverse = m ∧ Document.toMap m = m) ∧
      ∀ again : DocumentMap, again.Perm (Document.toMap m.reverse) → again.toDocument = m := by
  intro m
  obtain ⟨maps, -, -, orders⟩ := conversion_sorts
  have ordered : Sorted m := by decide
  have turned : m.reverse.Perm m := m.reverse_perm
  have walked : DocumentMap.toDocument m.reverse = m := rfl
  obtain ⟨-, -, back⟩ := maps m m.reverse ordered turned
  rw [walked] at back
  refine ⟨⟨ordered, turned, walked, back⟩, fun again order => ?_⟩
  have same := orders m m.reverse m again (by decide) turned (by rw [back]) order
  exact same.trans rfl

end DocumentMap

end Bson
