import FsmFabric.Compiler
import FsmFabric.Proofs.Machine.Chain
import FsmFabric.Proofs.Mask
import Mathlib.Algebra.Order.Floor.Div

/-!
# The block of words that a state takes

`Cuts` is the filling of words without a bound on their number: while an entry does not fit, its
first transitions make a partial word and the remainder goes on. Chains are cut that way, and what a
block of words holds follows the relation: no transition is lost, moved or doubled, every word but
the last is full, and a partial word drives what all words behind it drive in any case.
-/

namespace FsmFabric

namespace StateEntry

variable {room : Nat} {e : StateEntry} {block : List StateEntry}

theorem get_steadyOutput (some : e.transitions ≠ []) (bit : Nat) :
    e.steadyOutput.get bit = true ↔ ∀ t ∈ e.transitions, t.output.get bit = true := by
  have general (rest : List Transition) (m : Mask) :
      (rest.foldl (fun m u => m.intersect u.output) m).get bit = true ↔
        m.get bit = true ∧ ∀ t ∈ rest, t.output.get bit = true := by
    induction rest generalizing m with
    | nil => simp
    | cons t rest ih =>
      rw [List.foldl_cons, ih, Mask.get_intersect, Bool.and_eq_true, List.forall_mem_cons, and_assoc]
  unfold steadyOutput
  split
  · next none => exact absurd none some
  · next t rest found => rw [found, general, List.forall_mem_cons]

/-! ## Number of words -/

/-- The guards that the transitions of an entry need. A fallthrough behind others needs none. -/
def guardsNeeded (e : StateEntry) : Nat :=
  if 2 ≤ e.transitions.length ∧ e.endsInFallthrough = true then e.transitions.length - 1
  else e.transitions.length

theorem guardsNeeded_le_of_fits (pos : 0 < room) (fits : e.fits room = true) :
    e.guardsNeeded ≤ room := by
  unfold guardsNeeded
  rcases fits_eq_true.1 fits with short | ⟨one, last⟩
  · split <;> omega
  · rw [if_pos ⟨by omega, last⟩]
    omega

theorem endsInFallthrough_remainder (long : room < e.transitions.length) :
    (e.remainder room).endsInFallthrough = e.endsInFallthrough := by
  simp only [endsInFallthrough, remainder]
  rw [List.getLast?_drop, if_neg (by omega)]

theorem guardsNeeded_remainder (long : e.fits room = false) :
    room < e.guardsNeeded ∧ (e.remainder room).guardsNeeded = e.guardsNeeded - room := by
  have longer := room_lt_of_not_fits long
  unfold guardsNeeded
  rw [endsInFallthrough_remainder longer, length_transitions_remainder]
  rw [← Bool.not_eq_true, fits_eq_true] at long
  by_cases last : e.endsInFallthrough = true
  · -- the fallthrough does not stand alone in the remainder, else the entry would fit
    have : e.transitions.length ≠ room + 1 := fun one => long (.inr ⟨one, last⟩)
    rw [if_pos ⟨by omega, last⟩, if_pos ⟨by omega, last⟩]
    omega
  · rw [if_neg fun both => last both.2, if_neg fun both => last both.2]
    exact ⟨longer, rfl⟩

theorem Cuts.length_eq (cuts : Cuts room e block) (pos : 0 < room) :
    block.length = max 1 (e.guardsNeeded ⌈/⌉ room) := by
  simp only [Nat.ceilDiv_eq_add_pred_div]
  induction cuts with
  | @whole e fits =>
    have few := guardsNeeded_le_of_fits pos fits
    have : (e.guardsNeeded + room - 1) / room < 2 := (Nat.div_lt_iff_lt_mul pos).2 (by omega)
    rw [List.length_singleton, max_eq_left (by omega)]
  | @more e block long rest ih =>
    obtain ⟨many, left⟩ := guardsNeeded_remainder long
    rw [List.length_cons, ih, left]
    have first : e.guardsNeeded + room - 1 = e.guardsNeeded - room + room - 1 + room := by omega
    have next : 1 ≤ (e.guardsNeeded - room + room - 1) / room :=
      (Nat.le_div_iff_mul_le pos).2 (by omega)
    rw [first, Nat.add_div_right _ pos, max_eq_right next, max_eq_right (by omega)]

/-! ## What the words hold -/

theorem Cuts.flatMap_transitions (cuts : Cuts room e block) :
    block.flatMap transitions = e.transitions := by
  induction cuts with
  | whole fits => simp
  | more long rest ih =>
    rw [List.flatMap_cons, ih]
    exact List.take_append_drop room _

/-- The conditions of conditional outputs are simplified once for each word in front. -/
theorem Cuts.kept (cuts : Cuts room e block) {k : Nat} {c : StateEntry}
    (found : block[k]? = some c) :
    c.place = e.place ∧ c.conditionalOutputs =
      e.conditionalOutputs.map fun o => ⟨o.output, Expr.simplify^[k] o.condition⟩ := by
  induction cuts generalizing k with
  | @whole e fits =>
    obtain ⟨lt, rfl⟩ := List.getElem?_eq_some_iff.1 found
    obtain rfl : k = 0 := by simpa using lt
    exact ⟨rfl, (List.map_id _).symm⟩
  | @more e block long rest ih =>
    cases k with
    | zero =>
      cases found
      exact ⟨rfl, (List.map_id _).symm⟩
    | succ k =>
      obtain ⟨place, conditional⟩ := ih found
      refine ⟨place, conditional.trans ?_⟩
      rw [remainder, List.map_map]
      rfl

/-- A partial word drives what all words behind it drive in any case. -/
theorem Cuts.get_partialOutput (cuts : Cuts room e block) {k : Nat} {c : StateEntry}
    (found : block[k]? = some c) (more : k + 1 < block.length) (bit : Nat) :
    c.partialOutput.get bit = true ↔
      ∀ d ∈ block.drop (k + 1), ∀ t ∈ d.transitions, t.output.get bit = true := by
  induction cuts generalizing k with
  | whole fits => simp at more
  | @more e block long rest ih =>
    cases k with
    | zero =>
      cases found
      have longer := room_lt_of_not_fits long
      have left : (e.remainder room).transitions ≠ [] := by
        rw [← List.length_pos_iff, length_transitions_remainder]
        omega
      rw [upper, get_steadyOutput left, ← rest.flatMap_transitions, List.drop_one, List.tail_cons]
      simp only [List.mem_flatMap, forall_exists_index, and_imp]
      exact ⟨fun all d member t inside => all t d member inside,
        fun all t d member inside => all d member t inside⟩
    | succ k => exact ih found (by simpa using more)

/-- A block of words that holds a state. -/
structure Block (room : Nat) (e : StateEntry) (block : List StateEntry) : Prop where
  transitions : block.flatMap StateEntry.transitions = e.transitions
  kept : ∀ (k : Nat) (c : StateEntry), block[k]? = some c →
    c.fits room = true ∧ c.id = e.id ∧ c.place = e.place ∧
      c.conditionalOutputs =
        e.conditionalOutputs.map fun o => ⟨o.output, Expr.simplify^[k] o.condition⟩
  full : ∀ (k : Nat) (c : StateEntry), block[k]? = some c → k + 1 < block.length →
    c.isPartial = true ∧ c.transitions.length = room ∧
      ∀ bit, c.partialOutput.get bit = true ↔
        ∀ d ∈ block.drop (k + 1), ∀ t ∈ d.transitions, t.output.get bit = true
  last : ∃ c, block.getLast? = some c ∧ c.isPartial = false
  length : block.length =
    if 2 ≤ e.transitions.length ∧ e.endsInFallthrough = true then
      max 1 ((e.transitions.length - 1) ⌈/⌉ room)
    else max 1 (e.transitions.length ⌈/⌉ room)

theorem Cuts.isBlock (cuts : Cuts room e block) (pos : 0 < room) (whole : e.isPartial = false) :
    Block room e block where
  transitions := cuts.flatMap_transitions
  kept k c found := by
    have link := cuts.link whole found
    exact ⟨link.fits, link.id, cuts.kept found⟩
  full k c found more := by
    obtain ⟨isPartial, length, -⟩ := (cuts.link whole found).partly more
    exact ⟨isPartial, length, cuts.get_partialOutput found more⟩
  last := by
    have some := cuts.length_pos
    have found := List.getElem?_eq_getElem (Nat.sub_one_lt_of_lt some)
    have link := cuts.link whole found
    exact ⟨_, List.getLast?_eq_getElem?.trans found,
      (link.last (Nat.sub_add_cancel some)).1.trans whole⟩
  length := by
    rw [cuts.length_eq pos, guardsNeeded]
    split <;> rfl

end StateEntry

namespace Placement

/-- Placing a state puts a block of words that holds it behind all others and maps the state to the
first of them. -/
theorem add_appends_block (p : Placement) {room : Nat} (pos : 0 < room) {e : StateEntry}
    (whole : e.isPartial = false) :
    ∃ block, (p.add room e).entries = p.entries ++ block ∧ e.Block room block ∧
      ∀ id, (p.add room e).slots.find? id =
        if id = e.id then some p.entries.length else p.slots.find? id :=
  ⟨e.chain room, rfl, (StateEntry.cuts_chainWithin pos le_rfl).isBlock pos whole,
    p.slots.find?_insert e.id p.entries.length⟩

/-- Three guarded ways out of state 7 and a fallthrough, the last three of which drive output 1. -/
def threeWays : StateEntry where
  id := 7
  place := some ⟨"ways.sv", 3⟩
  transitions := [
    ⟨Mask.ofOnes 1 [0], .inputs [0], 1⟩,
    ⟨Mask.ofOnes 2 [0, 1], .inputs [1], 2⟩,
    ⟨Mask.ofOnes 2 [1], .inputs [2], 3⟩,
    ⟨Mask.ofOnes 3 [1, 2], .literal true, 7⟩]
  conditionalOutputs := [⟨0, .logicNot (.logicNot (.inputs [4]))⟩]

theorem add_appends_block_threeWays :
    0 < 1 ∧ threeWays.isPartial = false ∧
      ∃ block, (add ⟨[{ id := 9 }], ⟨[(9, 0)]⟩⟩ 1 threeWays).entries = { id := 9 } :: block ∧
        threeWays.Block 1 block ∧ block.length = 3 ∧
        (add ⟨[{ id := 9 }], ⟨[(9, 0)]⟩⟩ 1 threeWays).slots.find? 7 = some 1 := by
  obtain ⟨block, entries, holds, slots⟩ :=
    add_appends_block ⟨[{ id := 9 }], ⟨[(9, 0)]⟩⟩ Nat.one_pos (e := threeWays) rfl
  refine ⟨Nat.one_pos, rfl, block, entries, holds, ?_, slots 7⟩
  rw [holds.length, if_pos ⟨by decide, rfl⟩]
  rfl

end Placement

end FsmFabric
