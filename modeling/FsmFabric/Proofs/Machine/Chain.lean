import FsmFabric.Fabric.Step
import Mathlib.Tactic.Ring

/-!
# States that take several words

A state is cut into a chain of entries. Of all its transitions, the first one whose guard holds is
the first one in exactly one entry of the chain, and in no entry before it does any guard hold.
-/

namespace FsmFabric

/-- Transition `i` is the first one whose guard holds. -/
structure Transition.Decides (ts : List Transition) (x : Nat → Bool) (i : Nat) (t : Transition) :
    Prop where
  found : ts[i]? = some t
  holds : t.guard.holds x = true
  earlier : ∀ (j : Nat) (u : Transition), j < i → ts[j]? = some u → u.guard.holds x = false

namespace Transition.Decides

variable {ts : List Transition} {x : Nat → Bool} {i j : Nat} {t u : Transition}

theorem exists_of_mem (member : t ∈ ts) (holds : t.guard.holds x = true) :
    ∃ i u, Decides ts x i u := by
  induction ts with
  | nil => cases member
  | cons first rest ih =>
    by_cases now : first.guard.holds x = true
    · exact ⟨0, first, rfl, now, fun j u before => absurd before (Nat.not_lt_zero j)⟩
    · rcases List.mem_cons.1 member with rfl | later
      · exact absurd holds now
      · obtain ⟨i, u, found, holds, earlier⟩ := ih later
        refine ⟨i + 1, u, found, holds, fun j v before other => ?_⟩
        cases j with
        | zero =>
          cases other
          exact Bool.eq_false_iff.2 now
        | succ j => exact earlier j v (by omega) other

theorem firstMatch_eq (decides : Decides ts x i t) : firstMatch x ts = some t := by
  obtain ⟨lt, found⟩ := List.getElem?_eq_some_iff.1 decides.found
  refine List.find?_eq_some_iff_getElem.2 ⟨decides.holds, i, lt, found, fun j before => ?_⟩
  simp [decides.earlier j _ before (List.getElem?_eq_getElem (before.trans lt))]

theorem unique (first : Decides ts x i t) (second : Decides ts x j u) : i = j ∧ t = u := by
  have same : i = j := by
    rcases Nat.lt_trichotomy i j with before | same | after
    · exact absurd first.holds (by simp [second.earlier i t before first.found])
    · exact same
    · exact absurd second.holds (by simp [first.earlier j u after second.found])
  subst same
  exact ⟨rfl, Option.some.inj (first.found.symm.trans second.found)⟩

end Transition.Decides

namespace StateEntry

open Transition

variable {room words : Nat} {e c : StateEntry}

/-- Entry `k` of a chain of `count` entries. -/
structure Link (room : Nat) (e : StateEntry) (k count : Nat) (c : StateEntry) : Prop where
  id : c.id = e.id
  fits : c.fits room = true
  partly : k + 1 < count → c.isPartial = true ∧ c.transitions.length = room ∧
    c.transitions = (e.transitions.drop (k * room)).take room
  more : k + 1 < count → (k + 1) * room < e.transitions.length
  last : k + 1 = count → c.isPartial = e.isPartial ∧ c.transitions = e.transitions.drop (k * room)

theorem length_chainWithin_pos (room words : Nat) (e : StateEntry) :
    0 < (chainWithin room words e).length := by
  cases words with
  | zero => exact Nat.one_pos
  | succ words =>
    unfold chainWithin
    split <;> simp

/-- The full word that is cut off an entry. -/
def upper (e : StateEntry) (room : Nat) : StateEntry :=
  { e with
    transitions := e.transitions.take room
    isPartial := true
    partialOutput := (e.remainder room).steadyOutput }

/-- The words of an entry: one if it fits, else a full one in front of those of the remainder. -/
inductive Cuts (room : Nat) : StateEntry → List StateEntry → Prop
  | whole {e : StateEntry} (fits : e.fits room = true) : Cuts room e [e]
  | more {e : StateEntry} {block : List StateEntry} (long : e.fits room = false)
      (rest : Cuts room (e.remainder room) block) : Cuts room e (e.upper room :: block)

theorem fits_eq_true :
    e.fits room = true ↔ e.transitions.length ≤ room ∨
      e.transitions.length = room + 1 ∧ e.endsInFallthrough = true := by
  simp [fits]

theorem length_le_of_fits (fits : e.fits room = true) : e.transitions.length ≤ room + 1 := by
  rw [fits_eq_true] at fits
  omega

theorem room_lt_of_not_fits (long : e.fits room = false) : room < e.transitions.length := by
  rw [← Bool.not_eq_true, fits_eq_true] at long
  omega

@[simp] theorem length_transitions_remainder (e : StateEntry) (room : Nat) :
    (e.remainder room).transitions.length = e.transitions.length - room := by
  simp [remainder]

/-- A bound on the number of words that is large enough does not matter. -/
theorem cuts_chainWithin (pos : 0 < room) (enough : e.transitions.length ≤ words) :
    Cuts room e (chainWithin room words e) := by
  induction words generalizing e with
  | zero => exact .whole (fits_eq_true.2 (.inl (by omega)))
  | succ words ih =>
    unfold chainWithin
    split
    · next fits => exact .whole fits
    · next tooLong =>
      have long := Bool.eq_false_iff.2 tooLong
      have := room_lt_of_not_fits long
      exact .more long (ih (by rw [length_transitions_remainder]; omega))

theorem Cuts.length_pos {block : List StateEntry} (cuts : Cuts room e block) : 0 < block.length := by
  cases cuts with
  | whole => exact Nat.one_pos
  | more => exact Nat.succ_pos _

/-- The entries of a chain hold the transitions in order. -/
theorem Cuts.link {block : List StateEntry} (cuts : Cuts room e block)
    (whole : e.isPartial = false) {k : Nat} (found : block[k]? = some c) :
    Link room e k block.length c := by
  induction cuts generalizing k with
  | whole fits =>
    obtain ⟨lt, rfl⟩ := List.getElem?_eq_some_iff.1 found
    obtain rfl : k = 0 := by simpa using lt
    exact ⟨rfl, fits, fun more => by simp at more, fun more => by simp at more,
      fun _ => ⟨rfl, by simp⟩⟩
  | @more e block long rest ih =>
    have longer := room_lt_of_not_fits long
    rw [List.length_cons]
    cases k with
    | zero =>
      cases found
      have length : (e.transitions.take room).length = room := by
        rw [List.length_take]
        omega
      have several := rest.length_pos
      exact ⟨rfl, fits_eq_true.2 (.inl length.le), fun _ => ⟨rfl, length, by simp [upper]⟩,
        fun _ => by simpa using longer, fun single => by omega⟩
    | succ k =>
      have shifted : e.transitions.drop ((k + 1) * room) =
          (e.remainder room).transitions.drop (k * room) := by
        rw [remainder, List.drop_drop]
        congr 1
        ring
      obtain ⟨id, fits, partly, further, last⟩ := ih rfl (by simpa using found)
      rw [← shifted] at partly last
      refine ⟨id, fits, fun more => partly (by omega), fun more => ?_,
        fun final => whole ▸ last (by omega)⟩
      have further := further (by omega)
      rw [length_transitions_remainder] at further
      rw [Nat.succ_mul]
      omega

theorem link_of_chainWithin (pos : 0 < room) (enough : e.transitions.length ≤ words)
    (whole : e.isPartial = false) {k : Nat} (found : (chainWithin room words e)[k]? = some c) :
    Link room e k (chainWithin room words e).length c :=
  (cuts_chainWithin pos enough).link whole found

/-- The last entry of a chain holds what is left of a list of transitions. -/
theorem exists_last (pos : 0 < room) (enough : e.transitions.length ≤ words)
    (whole : e.isPartial = false) (some : e.transitions ≠ []) :
    ∃ c, (chainWithin room words e)[(chainWithin room words e).length - 1]? = .some c ∧
      c.id = e.id ∧ c.fits room = true ∧ c.isPartial = false ∧
      c.transitions = e.transitions.drop (((chainWithin room words e).length - 1) * room) ∧
      ((chainWithin room words e).length - 1) * room < e.transitions.length := by
  have count := length_chainWithin_pos room words e
  have here := List.getElem?_eq_getElem (Nat.sub_one_lt_of_lt count)
  have link := link_of_chainWithin pos enough whole here
  obtain ⟨isPartial, transitions⟩ := link.last (Nat.sub_add_cancel count)
  refine ⟨_, here, link.id, link.fits, isPartial.trans whole, transitions, ?_⟩
  rcases Nat.eq_or_lt_of_le count with single | several
  · rw [← single]
    simpa using List.length_pos_iff.2 some
  · have before := List.getElem?_eq_getElem (show (chainWithin room words e).length - 2 <
      (chainWithin room words e).length by omega)
    have link' := link_of_chainWithin pos enough whole before
    have more := link'.more (by omega)
    rwa [show (chainWithin room words e).length - 2 + 1 = (chainWithin room words e).length - 1 by
      omega] at more

/-- Cutting off full words ends: after some of them the rest of the entry fits, and the chain has
one entry for each word that was cut off and one for the rest. -/
theorem exists_remainder_fits (pos : 0 < room) (e : StateEntry) :
    ∃ k, (∀ j < k, ((remainder · room)^[j] e).fits room = false) ∧
      ((remainder · room)^[k] e).fits room = true ∧ (e.chain room).length = k + 1 := by
  have cuts : Cuts room e (e.chain room) := cuts_chainWithin pos le_rfl
  generalize e.chain room = block at cuts
  induction cuts with
  | whole fits => exact ⟨0, fun j before => absurd before (Nat.not_lt_zero j), fits, rfl⟩
  | more long _ ih =>
    obtain ⟨k, earlier, fits, length⟩ := ih
    refine ⟨k + 1, fun j before => ?_, fits, congrArg (· + 1) length⟩
    cases j with
    | zero => exact long
    | succ j => exact earlier j (by omega)

/-- No guard holds in an entry that fills its word, so control goes on to the next one. -/
structure Passes (room : Nat) (x : Nat → Bool) (c : StateEntry) : Prop where
  isPartial : c.isPartial = true
  length : c.transitions.length = room
  fails : ∀ t ∈ c.transitions, t.guard.holds x = false

/-- The transitions of an entry stand together in the state. -/
theorem Link.getElem?_eq {k count : Nat} (link : Link room e k count c) (lt : k < count) {j : Nat}
    (inside : j < room ∨ k + 1 = count) : c.transitions[j]? = e.transitions[k * room + j]? := by
  rw [← List.getElem?_drop]
  rcases Nat.lt_or_ge (k + 1) count with more | final
  · rw [(link.partly more).2.2, List.getElem?_take_of_lt (by omega)]
  · rw [(link.last (by omega)).2]

theorem Link.getElem?_of_found {k count : Nat} (link : Link room e k count c) (lt : k < count)
    {j : Nat} {t : Transition} (found : c.transitions[j]? = some t) :
    e.transitions[k * room + j]? = some t := by
  rw [← link.getElem?_eq lt]
  · exact found
  · rcases Nat.lt_or_ge (k + 1) count with more | final
    · obtain ⟨inside, -⟩ := List.getElem?_eq_some_iff.1 found
      exact .inl (inside.trans_eq (link.partly more).2.1)
    · exact .inr (by omega)

/-- One entry of the chain decides, and control passes all entries before it. -/
theorem exists_deciding (pos : 0 < room) (enough : e.transitions.length ≤ words)
    (whole : e.isPartial = false) {x : Nat → Bool} {i : Nat} {t : Transition}
    (decides : Decides e.transitions x i t) :
    ∃ k j c, (chainWithin room words e)[k]? = some c ∧ Decides c.transitions x j t ∧
      i = k * room + j ∧
      (j < room ∨ j = room ∧ k + 1 = (chainWithin room words e).length ∧ c.isPartial = false) ∧
      ∀ (m : Nat) (d : StateEntry), m < k → (chainWithin room words e)[m]? = some d →
        Passes room x d := by
  have links {k : Nat} {c : StateEntry} (found : (chainWithin room words e)[k]? = some c) :=
    link_of_chainWithin pos enough whole found
  have count := length_chainWithin_pos room words e
  generalize chainWithin room words e = chain at links count
  -- the entry of the transition: all but the last one hold `room` transitions each
  obtain ⟨k, j, lt, place, inside⟩ : ∃ k j, k < chain.length ∧ i = k * room + j ∧
      (j < room ∨ k + 1 = chain.length) := by
    rcases Nat.lt_or_ge i ((chain.length - 1) * room) with early | late
    · have := Nat.div_lt_of_lt_mul (Nat.mul_comm _ room ▸ early)
      exact ⟨i / room, i % room, by omega, (Nat.div_add_mod' i room).symm, .inl (Nat.mod_lt _ pos)⟩
    · exact ⟨chain.length - 1, i - (chain.length - 1) * room, by omega, by omega, .inr (by omega)⟩
  have here : chain[k]? = some chain[k] := List.getElem?_eq_getElem lt
  generalize chain[k] = c at here
  have link := links here
  have found : c.transitions[j]? = some t := by
    rw [link.getElem?_eq lt inside, ← place]
    exact decides.found
  refine ⟨k, j, c, here, ⟨found, decides.holds, fun j' u before other => ?_⟩, place, ?_,
    fun m d before other => ?_⟩
  · exact decides.earlier _ u (by omega) (link.getElem?_of_found lt other)
  · rcases inside with inside | final
    · exact .inl inside
    · obtain ⟨bound, -⟩ := List.getElem?_eq_some_iff.1 found
      have short := length_le_of_fits link.fits
      rcases Nat.lt_or_ge j room with inside | past
      · exact .inl inside
      · exact .inr ⟨by omega, final, (link.last final).1.trans whole⟩
  · have link' := links other
    obtain ⟨isPartial, length, -⟩ := link'.partly (by omega)
    refine ⟨isPartial, length, fun u member => ?_⟩
    obtain ⟨j', there⟩ := List.mem_iff_getElem?.1 member
    obtain ⟨bound, -⟩ := List.getElem?_eq_some_iff.1 there
    have : (m + 1) * room ≤ k * room := Nat.mul_le_mul_right _ before
    rw [Nat.succ_mul] at this
    exact decides.earlier _ u (by omega) (link'.getElem?_of_found (by omega) there)

end StateEntry

end FsmFabric
