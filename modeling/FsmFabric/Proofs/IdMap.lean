import FsmFabric.IdMap

/-!
# Entries of a map

What `insert` does to the entries of a map, and what its lookups say about them.
-/

namespace FsmFabric.IdMap

variable {α : Type} {m : IdMap α} {k : Nat} {a : α}

theorem mem_entries_insert {entry : Nat × α} (member : entry ∈ (m.insert k a).entries) :
    entry = (k, a) ∨ entry ∈ m.entries := by
  unfold insert at member
  generalize m.entries = entries at member ⊢
  induction entries with
  | nil => exact .inl (List.mem_singleton.1 member)
  | cons first rest ih =>
    unfold insert.go at member
    split at member
    · exact (List.mem_cons.1 member).imp_right id
    · split at member
      · exact (List.mem_cons.1 member).imp_right (List.mem_cons_of_mem _)
      · rcases List.mem_cons.1 member with rfl | member
        · exact .inr List.mem_cons_self
        · exact (ih member).imp_right (List.mem_cons_of_mem _)

theorem mem_entries_of_find? (found : m.find? k = some a) : (k, a) ∈ m.entries := by
  unfold find? at found
  generalize m.entries = entries at found ⊢
  induction entries with
  | nil => cases found
  | cons first rest ih =>
    unfold lookup at found
    split at found
    · next same =>
      obtain rfl := Option.some.inj found
      exact same ▸ List.mem_cons_self
    · exact List.mem_cons_of_mem _ (ih found)

theorem lookup_map (f : α → α) (k : Nat) (entries : List (Nat × α)) :
    lookup k (entries.map fun entry => (entry.1, f entry.2)) = (lookup k entries).map f := by
  induction entries with
  | nil => rfl
  | cons entry rest ih =>
    simp only [List.map_cons, lookup]
    split
    · rfl
    · exact ih

def Has (m : IdMap α) (k : Nat) : Prop := m.find? k ≠ none

theorem has_insert {j : Nat} : (m.insert k a).Has j ↔ m.Has j ∨ j = k := by
  unfold Has
  rw [find?_insert]
  split
  · next same => simp [same]
  · next differs => simp [differs]

/-! ## Maps in order -/

/-- No key has two entries. -/
def Ascending (m : IdMap α) : Prop := (m.entries.map (·.1)).Pairwise (· < ·)

theorem Ascending.insert (ascending : m.Ascending) (k : Nat) (a : α) :
    (m.insert k a).Ascending := by
  unfold Ascending IdMap.insert at *
  generalize m.entries = entries at ascending ⊢
  induction entries with
  | nil => exact List.pairwise_singleton _ _
  | cons entry rest ih =>
    obtain ⟨above, ordered⟩ := List.pairwise_cons.1 ascending
    unfold insert.go
    split
    · next before =>
      refine List.pairwise_cons.2 ⟨List.forall_mem_cons.2 ⟨before, fun j member => ?_⟩, ascending⟩
      exact Nat.lt_trans before (above j member)
    · split
      · next same => exact List.pairwise_cons.2 ⟨same ▸ above, ordered⟩
      · next behind differs =>
        refine List.pairwise_cons.2 ⟨fun j member => ?_, ih ordered⟩
        obtain ⟨other, stored, rfl⟩ := List.mem_map.1 member
        rcases mem_entries_insert (m := ⟨rest⟩) stored with rfl | stored
        · exact Nat.lt_of_le_of_ne (Nat.le_of_not_lt behind) (Ne.symm differs)
        · exact above other.1 (List.mem_map_of_mem stored)

theorem filter_entries (ascending : m.Ascending) (k : Nat) :
    m.entries.filter (·.1 == k) = ((m.find? k).map (k, ·)).toList := by
  unfold Ascending find? at *
  generalize m.entries = entries at ascending ⊢
  induction entries with
  | nil => rfl
  | cons entry rest ih =>
    obtain ⟨above, ordered⟩ := List.pairwise_cons.1 ascending
    rw [lookup, List.filter_cons]
    by_cases here : k = entry.1
    · subst here
      have others : rest.filter (·.1 == entry.1) = [] := by
        rw [List.filter_eq_nil_iff]
        intro other member same
        have larger : entry.1 < other.1 := above other.1 (List.mem_map_of_mem member)
        exact absurd (beq_iff_eq.1 same) (Nat.ne_of_gt larger)
      simp [others]
    · simp [here, Ne.symm here, ih ordered]

end FsmFabric.IdMap
