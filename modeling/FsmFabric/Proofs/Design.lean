import FsmFabric.Design.Basic
import FsmFabric.Proofs.Diagram.Reachable

/-!
# Replayed designs

A design that is replayed leads through the operations of a builder, so no state is declared twice.
Each state has a transition without a condition behind all others.
-/

namespace FsmFabric

namespace Diagram

/-- The last transition of a state has no condition. -/
theorem exists_getLast?_transitions (d : Diagram) (state : Nat) :
    ∃ t, (d.transitions state).getLast? = some t ∧ t.guard = .literal true := by
  unfold transitions
  induction d with
  | leaf output target => exact ⟨_, rfl, rfl⟩
  | branch test yes no ihy ihn =>
    cases test with
    | state id =>
      unfold transitionsUnder
      split
      · exact ihy
      · exact ihn
    | condition expr =>
      obtain ⟨t, last, guard⟩ := ihn
      exact ⟨t, by rw [transitionsUnder, List.getLast?_append, last, Option.some_or], guard⟩

end Diagram

namespace Builder

variable {p : Expr → Prop} {b b' : Builder}

/-- No state is declared twice. -/
theorem Reachable.nodup_states (reached : Reachable p b) : b.states.Nodup := by
  induction reached with
  | fresh => exact List.nodup_nil
  | split _ _ done ih =>
    obtain ⟨d, -, rfl⟩ := split_eq_ok.1 done
    exact ih
  | visit _ done ih =>
    obtain ⟨d, -, rfl⟩ := visit_eq_ok.1 done
    exact ih
  | join _ done ih =>
    obtain ⟨d, -, rfl⟩ := join_eq_ok.1 done
    exact ih
  | assign _ done ih => exact (kept_of_assign done).1.symm ▸ ih
  | setTarget _ done ih =>
    obtain ⟨d, -, rfl⟩ := setTarget_eq_ok.1 done
    exact ih
  | splitState _ done ih =>
    obtain ⟨fresh, d, -, rfl⟩ := splitState_eq_ok.1 done
    simp only [states, List.map_append, List.map_cons, List.map_nil]
    exact List.nodup_append.2 ⟨ih, List.nodup_singleton _, by
      rintro a old _ (_ | ⟨_, ⟨⟩⟩) rfl
      exact fresh old⟩
  | openDefault _ ih | leaveSwitch _ ih => exact ih

theorem Reachable.apply (reached : Reachable p b) {event : Event}
    (meets : ∀ condition place, event = .split condition place → p condition.simplify)
    (done : b.apply event = .ok b') : Reachable p b' := by
  cases event with
  | split condition place => exact reached.split (meets condition place rfl) done
  | visit yes => exact reached.visit done
  | join => exact reached.join done
  | assign destination value => exact reached.assign done
  | setTarget state => exact reached.setTarget done
  | splitState state place => exact reached.splitState done
  | openDefault place => exact Except.ok.inj done ▸ reached.openDefault
  | enterSwitch name => exact Except.ok.inj done ▸ reached
  | leaveSwitch => exact Except.ok.inj done ▸ reached.leaveSwitch

end Builder

namespace Design

variable {p : Expr → Prop}

theorem reachable_of_replayFrom {b b' : Builder} {places places' : List (Option Position)}
    {events : List Event} (reached : b.Reachable p)
    (meets : ∀ condition place, .split condition place ∈ events → p condition.simplify)
    (done : replayFrom b places events = .ok (b', places')) : b'.Reachable p := by
  induction events generalizing b places with
  | nil =>
    cases done
    exact reached
  | cons event rest ih =>
    unfold replayFrom at done
    split at done
    · cases done
    · obtain ⟨next, applied, done⟩ := bind_eq_ok.1 done
      have here : b.apply event = .ok next → next.Reachable p := by
        apply reached.apply
        rintro condition place rfl
        exact meets condition place List.mem_cons_self
      exact ih (here applied)
        (fun condition place later => meets condition place (List.mem_cons_of_mem _ later)) done

theorem replay_eq_ok {d : Design} {b : Builder} :
    d.replay = .ok b ↔ replayFrom Builder.fresh [] d.events = .ok (b, []) := by
  unfold replay
  constructor
  · intro replayed
    obtain ⟨⟨b', places⟩, replayed', rest⟩ := bind_eq_ok.1 replayed
    cases places with
    | nil =>
      cases rest
      exact replayed'
    | cons => cases rest
  · intro replayed
    exact bind_eq_ok.2 ⟨_, replayed, rfl⟩

/-- Replaying is a sequence of operations. -/
theorem reachable_of_replay {d : Design} {b : Builder} (replayed : d.replay = .ok b) :
    b.Reachable fun _ => True :=
  reachable_of_replayFrom .fresh (fun _ _ _ => trivial) (replay_eq_ok.1 replayed)

end Design

end FsmFabric
