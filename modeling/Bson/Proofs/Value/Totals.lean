import Mathlib.Algebra.Order.BigOperators.Group.List
import Mathlib.Algebra.Order.Group.Nat
import Mathlib.Algebra.Ring.Nat
import Bson.Proofs.Shape.Maps
import Bson.Proofs.Value.Children

/-!
# How much a value holds

* `Value.total`         the elements of a value at all levels, and the bytes of its names, texts and
                        binary data, each counted at a price;
* `Value.elementCount`, `Value.heldBytes`  the number of elements, and the number of such bytes;
* `Value.footprint`     both together, two for each element: an element takes a tag byte and a zero
                        byte besides (`footprint_eq`);
* `Value.total_toMaps_le`, `Value.depth_toMaps_le`  maps made of documents hold no more, and nest no
                        deeper.

Bytes that were not read are not looked into: they hold no elements.
-/

namespace Bson

namespace Value

mutual

/-- the price of the elements of a value at all levels, and of the bytes of its names, texts and
binary data -/
def total (element byte : Nat) : Value → Nat
  | document fs | map fs => totalOfFields element byte fs
  | array items => totalOfItems element byte items
  | codeWithScope code scope => byte * (utf8 code).length + totalOfFields element byte scope
  | string s | javaScript s | symbol s => byte * (utf8 s).length
  | regex r => byte * ((utf8 r.pattern).length + (utf8 r.options).length)
  | dbPointer p => byte * (utf8 p.collection).length
  | binary bs => byte * bs.length
  | _ => 0

def totalOfFields (element byte : Nat) : List (String × Value) → Nat
  | [] => 0
  | (name, v) :: rest =>
    element + byte * (utf8 name).length + v.total element byte + totalOfFields element byte rest

def totalOfItems (element byte : Nat) : List Value → Nat
  | [] => 0
  | v :: rest => element + v.total element byte + totalOfItems element byte rest

end

def elementCount : Value → Nat := total 1 0

def heldBytes : Value → Nat := total 0 1

/-- two bytes for each element, and those of names, texts and binary data -/
def footprint : Value → Nat := total 2 1

variable {element byte : Nat}

theorem totalOfItems_eq (items : List Value) :
    totalOfItems element byte items = (items.map fun v => element + v.total element byte).sum := by
  induction items with
  | nil => rw [totalOfItems, List.map_nil, List.sum_nil]
  | cons v rest ih => rw [totalOfItems, ih, List.map_cons, List.sum_cons]

theorem totalOfFields_eq (fs : Fields Value) :
    totalOfFields element byte fs =
      (fs.map fun f => element + byte * (utf8 f.1).length + f.2.total element byte).sum := by
  induction fs with
  | nil => rw [totalOfFields, List.map_nil, List.sum_nil]
  | cons f rest ih => rw [totalOfFields, ih, List.map_cons, List.sum_cons]

/-- the items of an array hold no more than the fields that they were read from, in any order -/
theorem totalOfItems_le_of_perm {fs gs : Fields Value} (h : gs.Perm fs) :
    totalOfItems element byte (gs.map Prod.snd) ≤ totalOfFields element byte fs := by
  rw [totalOfItems_eq, List.map_map, (h.map _).sum_eq, totalOfFields_eq]
  refine List.sum_le_sum fun f _ => ?_
  show element + f.2.total element byte ≤ _
  omega

mutual

theorem footprint_eq : ∀ v : Value, v.footprint = 2 * v.elementCount + v.heldBytes
  | document fs | map fs => footprintOfFields_eq fs
  | array items => footprintOfItems_eq items
  | codeWithScope code fs => by
    have scope := footprintOfFields_eq fs
    simp only [footprint, elementCount, heldBytes, total]
    omega
  | string _ | javaScript _ | symbol _ | regex _ | dbPointer _ | binary _ => by
    simp only [footprint, elementCount, heldBytes, total]
    omega
  | double _ | undefined | objectId _ | boolean _ | dateTime _ | null | int32 _ | timestamp _
  | int64 _ | minKey | maxKey | raw _ => rfl

theorem footprintOfFields_eq : ∀ fs : List (String × Value),
    totalOfFields 2 1 fs = 2 * totalOfFields 1 0 fs + totalOfFields 0 1 fs
  | [] => rfl
  | (name, v) :: rest => by
    have first := footprint_eq v
    have more := footprintOfFields_eq rest
    simp only [footprint, elementCount, heldBytes] at first
    simp only [totalOfFields]
    omega

theorem footprintOfItems_eq : ∀ items : List Value,
    totalOfItems 2 1 items = 2 * totalOfItems 1 0 items + totalOfItems 0 1 items
  | [] => rfl
  | v :: rest => by
    have first := footprint_eq v
    have more := footprintOfItems_eq rest
    simp only [footprint, elementCount, heldBytes] at first
    simp only [totalOfItems]
    omega

end

/-! ### as maps -/

theorem totalOfFields_place_le (name : String) (v : Value) (fs : Fields Value) :
    totalOfFields element byte (Fields.place name v fs) ≤
      totalOfFields element byte ((name, v) :: fs) := by
  induction fs with
  | nil => exact Nat.le_refl _
  | cons f rest ih =>
    rw [Fields.place]
    split
    · rename_i same
      simp only [totalOfFields, same]
      omega
    · split
      · exact Nat.le_refl _
      · simp only [totalOfFields] at ih ⊢
        omega

theorem totalOfFields_sorted_le (fs : Fields Value) :
    totalOfFields element byte (Fields.sorted fs) ≤ totalOfFields element byte fs := by
  have more (acc : Fields Value) :
      totalOfFields element byte (fs.foldl (fun acc f => Fields.place f.1 f.2 acc) acc) ≤
        totalOfFields element byte fs + totalOfFields element byte acc := by
    induction fs generalizing acc with
    | nil => exact Nat.le_add_left ..
    | cons f rest ih =>
      have step := ih (Fields.place f.1 f.2 acc)
      have placed : totalOfFields element byte (Fields.place f.1 f.2 acc) ≤
          totalOfFields element byte (f :: acc) := totalOfFields_place_le f.1 f.2 acc
      rw [List.foldl_cons]
      simp only [totalOfFields] at placed ⊢
      omega
  have all := more []
  rwa [totalOfFields, Nat.add_zero] at all

theorem totalOfFields_mapValues_le {f : Value → Value} {fs : Fields Value}
    (h : ∀ e ∈ fs, (f e.2).total element byte ≤ e.2.total element byte) :
    totalOfFields element byte (fs.mapValues f) ≤ totalOfFields element byte fs := by
  induction fs with
  | nil => exact Nat.le_refl _
  | cons e rest ih =>
    obtain ⟨first, more⟩ := List.forall_mem_cons.1 h
    have rest := ih more
    show totalOfFields element byte ((e.1, f e.2) :: Fields.mapValues f _) ≤ _
    simp only [totalOfFields]
    omega

theorem total_toMaps_le (v : Value) : v.toMaps.total element byte ≤ v.total element byte := by
  induction v using childInduction with
  | step v ih =>
    cases v with
    | document fs =>
      have each := totalOfFields_mapValues_le (List.forall_mem_map.1 ih)
      rw [toMaps_document, Document.toMaps, Document.toMap, toMapsInFields_eq, total, total]
      exact Nat.le_trans (totalOfFields_sorted_le _) each
    | array items =>
      rw [toMaps_array, total, total, totalOfItems_eq, totalOfItems_eq, List.map_map]
      exact List.sum_le_sum fun w hw => Nat.add_le_add_left (ih w hw) element
    | _ => exact Nat.le_refl _

theorem depth_toMaps_le (v : Value) : v.toMaps.depth ≤ v.depth := by
  induction v using childInduction with
  | step v ih =>
    cases v with
    | document fs =>
      have each := depthOfFields_le_iff.1 (Nat.le_refl (depthOfFields fs))
      rw [toMaps_document, Document.toMaps, Document.toMap, toMapsInFields_eq, depth, depth]
      refine Nat.succ_le_succ (depthOfFields_le_iff.2 fun f hf => ?_)
      obtain ⟨g, hg, rfl⟩ := List.mem_map.1 (Fields.mem_sorted hf)
      exact Nat.le_trans (ih g.2 (List.mem_map_of_mem hg)) (each g hg)
    | array items =>
      have each := depthOfItems_le_iff.1 (Nat.le_refl (depthOfItems items))
      rw [toMaps_array, depth, depth]
      refine Nat.succ_le_succ (depthOfItems_le_iff.2 (List.forall_mem_map.2 fun w hw => ?_))
      exact Nat.le_trans (ih w hw) (each w hw)
    | _ => exact Nat.le_refl _

end Value

end Bson
