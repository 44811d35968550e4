import Bson.Json.Reader
import Bson.Proofs.Fields.Merged

/-!
# Objects whose members have different names

* `Json.distinct`       whether no object at any level has two members of one name;
* `Json.distinct_of_read?`  that holds of every value that is read from a text.
-/

namespace Bson.Json

mutual

/-- whether no object at any level has two members of one name -/
def distinct : Json → Bool
  | .array items => distinctItems items
  | .object members => decide (Fields.names members).Nodup && distinctMembers members
  | _ => true

def distinctItems : List Json → Bool
  | [] => true
  | j :: rest => j.distinct && distinctItems rest

def distinctMembers : List (String × Json) → Bool
  | [] => true
  | (_, j) :: rest => j.distinct && distinctMembers rest

end

theorem distinctMembers_iff {members : Fields Json} :
    distinctMembers members ↔ ∀ m ∈ members, m.2.distinct := by
  induction members with
  | nil => simp [distinctMembers]
  | cons m rest ih => rw [distinctMembers, Bool.and_eq_true, ih, List.forall_mem_cons]

theorem distinct_merge {members : Fields Json} (h : distinctMembers members) :
    (object (Fields.merge members)).distinct := by
  have inside := distinctMembers_iff.1 h
  rw [distinct, Bool.and_eq_true, distinctMembers_iff]
  exact ⟨decide_eq_true (Fields.nodup_merge members), fun m hm => inside m (Fields.mem_merge hm)⟩

mutual

theorem distinct_of_value? : ∀ (fuel : Nat) {depth : Nat} {cs : List Char} {j : Json}
    {rest : List Char}, value? fuel depth cs = some (j, rest) → j.distinct
  | 0, _, _, _, _, read => by cases read
  | fuel + 1, depth, cs, j, rest, read => by
    rw [value?] at read
    split at read
    · obtain ⟨_, -, same⟩ := Option.map_eq_some_iff.1 read
      cases same
      rfl
    · split at read
      · cases read
      · split at read
        · cases read
          rfl
        · obtain ⟨⟨items, _⟩, inside, same⟩ := Option.map_eq_some_iff.1 read
          cases same
          exact distinct_of_items? fuel inside
    · split at read
      · cases read
      · split at read
        · cases read
          rfl
        · obtain ⟨⟨members, _⟩, inside, same⟩ := Option.map_eq_some_iff.1 read
          cases same
          exact distinct_merge (distinct_of_members? fuel inside)
    · cases read
      rfl
    · cases read
      rfl
    · cases read
      rfl
    · obtain ⟨_, -, same⟩ := Option.map_eq_some_iff.1 read
      cases same
      rfl

theorem distinct_of_items? : ∀ (fuel : Nat) {depth : Nat} {cs : List Char} {items : List Json}
    {rest : List Char}, items? fuel depth cs = some (items, rest) → distinctItems items
  | 0, _, _, _, _, read => by cases read
  | fuel + 1, depth, cs, items, rest, read => by
    rw [items?] at read
    obtain ⟨⟨j, after⟩, first, read⟩ := Option.bind_eq_some_iff.1 read
    have here := distinct_of_value? fuel first
    simp only at read
    split at read
    · obtain ⟨⟨more, _⟩, later, same⟩ := Option.bind_eq_some_iff.1 read
      cases same
      rw [distinctItems, here, distinct_of_items? fuel later]
      rfl
    · cases read
      rw [distinctItems, here]
      rfl
    · cases read

theorem distinct_of_members? : ∀ (fuel : Nat) {depth : Nat} {cs : List Char}
    {members : List (String × Json)} {rest : List Char},
    members? fuel depth cs = some (members, rest) → distinctMembers members
  | 0, _, _, _, _, read => by cases read
  | fuel + 1, depth, cs, members, rest, read => by
    rw [members?] at read
    split at read
    · obtain ⟨⟨name, after⟩, -, read⟩ := Option.bind_eq_some_iff.1 read
      simp only at read
      split at read
      · obtain ⟨⟨j, after⟩, first, read⟩ := Option.bind_eq_some_iff.1 read
        have here := distinct_of_value? fuel first
        simp only at read
        split at read
        · obtain ⟨⟨more, _⟩, later, same⟩ := Option.bind_eq_some_iff.1 read
          cases same
          rw [distinctMembers, here, distinct_of_members? fuel later]
          rfl
        · cases read
          rw [distinctMembers, here]
          rfl
        · cases read
      · cases read
    · cases read

end

theorem distinct_of_read? {depth : Nat} {text : String} {j : Json}
    (read : read? depth text = some j) : j.distinct := by
  rw [read?] at read
  split at read
  · rename_i found
    split at read
    · cases read
      exact distinct_of_value? _ found
    · cases read
  · cases read

end Bson.Json
