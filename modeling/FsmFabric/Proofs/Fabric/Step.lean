import FsmFabric.Proofs.Fabric.Word
import FsmFabric.Proofs.Machine.Chain

/-!
# Steps through a chain of words

Where consecutive words carry the chain of a state, a step from the first of them takes the first
transition whose guard holds. It passes the words before the one that decides. A transition at a
table jumps to the word of its target; the one behind the tables rests in its own word.
-/

namespace FsmFabric

open Transition

namespace Fabric

variable {f : Fabric} {image : Image} {x : Nat → Bool} {slots : IdMap Nat} {word : Nat}
  {e c : StateEntry}

section FirstFiring

variable {fires : Nat → Bool}

theorem firstFiring_eq_some {n count j : Nat}
    (known : ∀ m, m < n + count → f.fires image x word m = some (fires m)) (low : n ≤ j)
    (high : j < n + count) (here : fires j = true)
    (earlier : ∀ m, m < j → fires m = false) :
    f.firstFiring image x word n count = some (some j) := by
  induction count generalizing n with
  | zero => omega
  | succ count ih =>
    rw [firstFiring, known n (by omega)]
    rcases Nat.eq_or_lt_of_le low with rfl | less
    · rw [here]
      rfl
    · rw [earlier n less]
      exact ih (fun m lt => known m (by omega)) less (by omega)

theorem firstFiring_eq_none {n count : Nat}
    (known : ∀ m, m < n + count → f.fires image x word m = some (fires m))
    (silent : ∀ m, m < n + count → fires m = false) :
    f.firstFiring image x word n count = some none := by
  induction count generalizing n with
  | zero => rfl
  | succ count ih =>
    rw [firstFiring, known n (by omega), silent n (by omega)]
    exact ih (fun m lt => known m (by omega)) fun m lt => silent m (by omega)

end FirstFiring

theorem Carries.firstFiring_eq_none (carries : f.Carries image slots word c)
    (full : f.guards ≤ c.transitions.length)
    (fails : ∀ (m : Nat) (t : Transition), m < f.guards → c.transitions[m]? = some t →
      t.guard.holds x = false) : f.firstFiring image x word 0 f.guards = some none := by
  refine Fabric.firstFiring_eq_none (fun m lt => carries.fires x m (by omega)) fun m lt => ?_
  have here := List.getElem?_eq_getElem (show m < c.transitions.length by omega)
  rw [guardAt, here]
  exact fails m _ (by omega) here

/-- Control goes on from a word in which no guard holds. -/
theorem Carries.stepWithin_of_passes (carries : f.Carries image slots word c)
    (passes : c.Passes f.guards x) (left : Nat) :
    f.stepWithin image x (left + 1) word = f.stepWithin image x left (word + 1) := by
  obtain ⟨field, found⟩ := carries.continued passes.isPartial
  obtain ⟨inc, read, set⟩ := carries.inc field found
  have silent := carries.firstFiring_eq_none passes.length.ge fun m t _ there =>
    passes.fails t (List.mem_of_getElem? there)
  rw [stepWithin, silent]
  simp only [bind, Option.bind, read, set, passes.isPartial, if_true]

/-- A table whose guard holds first decides. -/
theorem Carries.stepWithin_of_decides (carries : f.Carries image slots word c) {j : Nat} {t : Transition}
    (decides : Decides c.transitions x j t) (table : j < f.guards) (left : Nat) :
    ∃ field slot, image.layout.field? .out j = some field ∧ slots.find? t.target = some slot ∧
      f.stepWithin image x (left + 1) word = some ⟨slot, t.output.extract 0 field.width⟩ := by
  obtain ⟨field, slot, found, target, move⟩ := carries.move j t decides.found table
  refine ⟨field, slot, found, target, ?_⟩
  have fires : f.firstFiring image x word 0 f.guards = some (some j) := by
    refine firstFiring_eq_some (fun m lt => carries.fires x m (by omega)) (Nat.zero_le j)
      (by omega) ?_ fun m before => ?_
    · rw [guardAt, decides.found]
      exact decides.holds
    · obtain ⟨inside, -⟩ := List.getElem?_eq_some_iff.1 decides.found
      have here := List.getElem?_eq_getElem (before.trans inside)
      rw [guardAt, here]
      exact decides.earlier m _ before here
  rw [stepWithin, fires]
  exact move

/-- The transition behind the tables stays in its state. -/
theorem Carries.target_of_behind (carries : f.Carries image slots word c) {t : Transition}
    (found : c.transitions[f.guards]? = some t) : t.target = c.id := by
  obtain ⟨inside, -⟩ := List.getElem?_eq_some_iff.1 found
  obtain ⟨length, stays⟩ := (StateEntry.fits_eq_true.1 carries.fits).resolve_left (by omega)
  rw [StateEntry.endsInFallthrough, List.getLast?_eq_getElem?, length, Nat.add_sub_cancel,
    found] at stays
  replace stays : t.isFallthrough c.id = true := stays
  unfold isFallthrough at stays
  split at stays
  · exact beq_iff_eq.1 stays
  · cases stays

/-- The transition behind the tables rests in its word, if the fabric can see that control does not
go on. -/
theorem Carries.stepWithin_of_rests (carries : f.Carries image slots word c)
    (whole : c.isPartial = false) {t : Transition}
    (decides : Decides c.transitions x f.guards t) (left : Nat) :
    ∃ field, image.layout.field? .out f.guards = some field ∧
      f.stepWithin image x (left + 1) word =
        (image.layout.field? .inc 0).map fun _ => ⟨word, t.output.extract 0 field.width⟩ := by
  obtain ⟨field, found, output⟩ := carries.rest t decides.found
  refine ⟨field, found, ?_⟩
  obtain ⟨inside, -⟩ := List.getElem?_eq_some_iff.1 decides.found
  have silent := carries.firstFiring_eq_none inside.le decides.earlier
  rw [stepWithin, silent]
  cases flag : image.layout.field? .inc 0 with
  | none => simp [Image.fieldOf_eq_none flag]
  | some inc =>
    obtain ⟨bits, read, clear⟩ := carries.inc inc flag
    simp [read, clear, whole, output]

section Chain

variable {words i : Nat} {t : Transition}
  (carried : ∀ (k : Nat) (c : StateEntry), (StateEntry.chainWithin f.guards words e)[k]? = some c →
    f.Carries image slots (word + k) c)

include carried

/-- A step passes words one by one. -/
theorem stepWithin_of_passing {k : Nat}
    (passed : ∀ (m : Nat) (d : StateEntry), m < k →
      (StateEntry.chainWithin f.guards words e)[m]? = some d → d.Passes f.guards x)
    (inside : k ≤ (StateEntry.chainWithin f.guards words e).length) (left : Nat) :
    f.stepWithin image x (left + k) word = f.stepWithin image x left (word + k) := by
  induction k generalizing left with
  | zero => rfl
  | succ k ih =>
    obtain ⟨c, here⟩ : ∃ c, (StateEntry.chainWithin f.guards words e)[k]? = some c :=
      ⟨_, List.getElem?_eq_getElem inside⟩
    calc f.stepWithin image x (left + (k + 1)) word
        = f.stepWithin image x (left + 1 + k) word := by rw [Nat.add_right_comm, Nat.add_assoc]
      _ = f.stepWithin image x (left + 1) (word + k) :=
          ih (fun m d before => passed m d (by omega)) (by omega) (left + 1)
      _ = f.stepWithin image x left (word + k + 1) :=
          (carried k c here).stepWithin_of_passes (passed k c (Nat.lt_succ_self k) here) left

/-- A step from the first word of a chain takes the first transition whose guard holds. -/
theorem stepWithin_of_chain (pos : 0 < f.guards) (enough : e.transitions.length ≤ words)
    (whole : e.isPartial = false) (decides : Decides e.transitions x i t) {passes : Nat}
    (far : (StateEntry.chainWithin f.guards words e).length ≤ passes) :
    (i < (StateEntry.chainWithin f.guards words e).length * f.guards ∧
      ∃ field slot, image.layout.field? .out (i % f.guards) = some field ∧
        slots.find? t.target = some slot ∧
        f.stepWithin image x passes word = some ⟨slot, t.output.extract 0 field.width⟩) ∨
    (i = (StateEntry.chainWithin f.guards words e).length * f.guards ∧ t.target = e.id ∧
      ∃ field, image.layout.field? .out f.guards = some field ∧
        f.stepWithin image x passes word = (image.layout.field? .inc 0).map fun _ =>
          ⟨word + ((StateEntry.chainWithin f.guards words e).length - 1),
            t.output.extract 0 field.width⟩) := by
  obtain ⟨k, j, c, here, first, rfl, place, passed⟩ :=
    StateEntry.exists_deciding pos enough whole decides
  obtain ⟨inside, -⟩ := List.getElem?_eq_some_iff.1 here
  have link := StateEntry.link_of_chainWithin pos enough whole here
  have carries := carried k c here
  obtain ⟨left, rfl⟩ : ∃ left, passes = left + 1 + k := ⟨passes - k - 1, by omega⟩
  rw [stepWithin_of_passing carried passed inside.le (left + 1)]
  rcases place with table | ⟨rfl, final, stays⟩
  · obtain ⟨field, slot, found, target, step⟩ := carries.stepWithin_of_decides first table left
    refine .inl ⟨?_, field, slot, ?_, target, step⟩
    · calc k * f.guards + j < k * f.guards + f.guards := by omega
        _ = (k + 1) * f.guards := (Nat.succ_mul k f.guards).symm
        _ ≤ _ := Nat.mul_le_mul_right _ inside
    · rw [Nat.mul_add_mod', Nat.mod_eq_of_lt table]
      exact found
  · obtain ⟨field, found, step⟩ := carries.stepWithin_of_rests stays first left
    refine .inr ⟨?_, (carries.target_of_behind first.found).trans link.id, field, found, ?_⟩
    · rw [← final, Nat.succ_mul]
    · rw [step, ← final, Nat.add_sub_cancel]

end Chain

end Fabric

end FsmFabric
