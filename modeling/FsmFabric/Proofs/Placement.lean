import FsmFabric.Compiler
import FsmFabric.Proofs.Machine.Chain

/-!
# Where the states of a machine are placed

Every declared state has its chain of entries in consecutive words, and the map of words names the
first of them.
-/

namespace FsmFabric.Placement

variable {room : Nat} {p : Placement} {d e : StateEntry}

/-- The chain of a state stands in consecutive words from a first one on. -/
structure Places (p : Placement) (room : Nat) (e : StateEntry) (first : Nat) : Prop where
  slot : p.slots.find? e.id = some first
  chain : ∀ (k : Nat) (c : StateEntry), (e.chain room)[k]? = some c →
    p.entries[first + k]? = some c

/-- Words belong to the states whose entries they hold. -/
structure Consistent (p : Placement) : Prop where
  known : ∀ c ∈ p.entries, p.slots.find? c.id ≠ none
  first : ∀ state word, p.slots.find? state = some word →
    ∃ c, p.entries[word]? = some c ∧ c.id = state

theorem places_add (p : Placement) (room : Nat) (e : StateEntry) :
    (p.add room e).Places room e p.entries.length where
  slot := by rw [add, IdMap.find?_insert, if_pos rfl]
  chain k c found := by
    rw [add, List.getElem?_append_right (Nat.le_add_right ..), Nat.add_sub_cancel_left]
    exact found

/-- A placed entry keeps its word. -/
theorem getElem?_add {word : Nat} {c : StateEntry} (found : p.entries[word]? = some c) :
    (p.add room e).entries[word]? = some c := by
  obtain ⟨inside, -⟩ := List.getElem?_eq_some_iff.1 found
  rw [add, List.getElem?_append_left inside]
  exact found

theorem Places.add {first : Nat} (places : p.Places room d first) (differs : d.id ≠ e.id) :
    (p.add room e).Places room d first where
  slot := by
    rw [Placement.add, IdMap.find?_insert, if_neg differs]
    exact places.slot
  chain k c found := getElem?_add (places.chain k c found)

theorem Consistent.add (consistent : p.Consistent) (pos : 0 < room) (whole : e.isPartial = false) :
    (p.add room e).Consistent := by
  have id_eq {k : Nat} {c : StateEntry} (found : (e.chain room)[k]? = some c) : c.id = e.id :=
    (StateEntry.link_of_chainWithin pos le_rfl whole found).id
  refine ⟨fun c member => ?_, fun state word found => ?_⟩
  · rw [Placement.add, IdMap.find?_insert]
    split
    · exact nofun
    · next differs =>
      rcases List.mem_append.1 member with old | new
      · exact consistent.known c old
      · obtain ⟨k, found⟩ := List.mem_iff_getElem?.1 new
        exact absurd (id_eq found) differs
  · rw [Placement.add, IdMap.find?_insert] at found
    split at found
    · next same =>
      subst same
      obtain rfl := Option.some.inj found
      have here := List.getElem?_eq_getElem
        (StateEntry.length_chainWithin_pos room e.transitions.length e)
      exact ⟨_, (places_add p room e).chain 0 _ here, id_eq here⟩
    · obtain ⟨c, here, same⟩ := consistent.first state word found
      exact ⟨c, getElem?_add here, same⟩

section Arms

variable {b : Builder} {arms : List (Nat × Arm)}

theorem Places.foldl {first : Nat} (places : p.Places room d first)
    (differs : ∀ a ∈ arms, d.id ≠ a.1) :
    (arms.foldl (fun p (state, arm) => p.add room (b.entryOf state arm)) p).Places room d first := by
  induction arms generalizing p with
  | nil => exact places
  | cons a rest ih =>
    obtain ⟨here, later⟩ := List.forall_mem_cons.1 differs
    exact ih (places.add here) later

theorem Consistent.foldl (consistent : p.Consistent) (pos : 0 < room) :
    (arms.foldl (fun p (state, arm) => p.add room (b.entryOf state arm)) p).Consistent := by
  induction arms generalizing p with
  | nil => exact consistent
  | cons a rest ih => exact ih (consistent.add pos rfl)

theorem exists_places_foldl (distinct : (arms.map Prod.fst).Nodup) {state : Nat} {arm : Arm}
    (declared : (state, arm) ∈ arms) :
    ∃ first, (arms.foldl (fun p (state, arm) => p.add room (b.entryOf state arm)) p).Places room
      (b.entryOf state arm) first := by
  induction arms generalizing p with
  | nil => cases declared
  | cons a rest ih =>
    obtain ⟨fresh, later⟩ := List.nodup_cons.1 distinct
    rcases List.mem_cons.1 declared with rfl | member
    · refine ⟨_, (places_add p room _).foldl fun a other same => fresh ?_⟩
      exact List.mem_map.2 ⟨a, other, same.symm⟩
    · exact ih later member

theorem mem_or_of_slot_foldl {state word : Nat}
    (found : (arms.foldl (fun p (state, arm) => p.add room (b.entryOf state arm)) p).slots.find?
      state = some word) : state ∈ arms.map Prod.fst ∨ p.slots.find? state = some word := by
  induction arms generalizing p with
  | nil => exact .inr found
  | cons a rest ih =>
    obtain ⟨id, arm⟩ := a
    rcases ih found with later | before
    · exact .inl (List.mem_cons_of_mem _ later)
    · simp only [Placement.add, IdMap.find?_insert] at before
      split at before
      · next same => exact .inl (List.mem_cons.2 (.inl same))
      · exact .inr before

end Arms

/-- Every declared state of a machine has its words. -/
theorem exists_places {b : Builder} (distinct : b.states.Nodup) {state : Nat} {arm : Arm}
    (declared : (state, arm) ∈ b.arms) :
    ∃ first, (ofBuilder b room).Places room (b.entryOf state arm) first :=
  exists_places_foldl distinct declared

/-- Only declared states have words. -/
theorem mem_states_of_slot {b : Builder} {state word : Nat}
    (found : (ofBuilder b room).slots.find? state = some word) : state ∈ b.states :=
  (mem_or_of_slot_foldl found).resolve_right nofun

theorem consistent_ofBuilder (b : Builder) (pos : 0 < room) : (ofBuilder b room).Consistent :=
  Consistent.foldl ⟨nofun, nofun⟩ pos

/-- Every entry of a placement is cut from the entry of an arm. -/
theorem exists_of_mem_entries {b : Builder} {room : Nat} {c : StateEntry}
    (member : c ∈ (ofBuilder b room).entries) :
    ∃ entry ∈ b.arms, c ∈ (b.entryOf entry.1 entry.2).chain room := by
  have general (arms : List (Nat × Arm)) (p : Placement)
      (member : c ∈ (arms.foldl (fun p entry =>
        p.add room (b.entryOf entry.1 entry.2)) p).entries) :
      c ∈ p.entries ∨ ∃ entry ∈ arms, c ∈ (b.entryOf entry.1 entry.2).chain room := by
    induction arms generalizing p with
    | nil => exact .inl member
    | cons entry rest ih =>
      rcases ih _ member with before | ⟨later, inRest, placed⟩
      · rcases List.mem_append.1 before with before | placed
        · exact .inl before
        · exact .inr ⟨entry, List.mem_cons_self, placed⟩
      · exact .inr ⟨later, List.mem_cons_of_mem _ inRest, placed⟩
  rcases general b.arms {} member with none | found
  · cases none
  · exact found

end FsmFabric.Placement

namespace FsmFabric.Builder

/-- What goes into the words of an image, in order: the entries of the declared states, and then
for each word that is left the entry of the state that has its number. -/
def wordEntries (b : Builder) (room words : Nat) : List StateEntry :=
  let declared := (Placement.ofBuilder b room).entries
  declared ++ (List.range' declared.length (words - declared.length)).map b.spareEntry

theorem getElem?_wordEntries {b : Builder} {room words slot : Nat}
    (left : (Placement.ofBuilder b room).entries.length ≤ slot) (inside : slot < words) :
    (b.wordEntries room words)[slot]? = some (b.spareEntry slot) := by
  have offset : slot - (Placement.ofBuilder b room).entries.length <
      words - (Placement.ofBuilder b room).entries.length := by omega
  rw [wordEntries, List.getElem?_append_right left, List.getElem?_map,
    List.getElem?_range' offset, Option.map_some, Nat.one_mul, Nat.add_sub_cancel' left]

end FsmFabric.Builder
