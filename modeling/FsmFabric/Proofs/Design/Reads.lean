import FsmFabric.Machine.StateEntry
import FsmFabric.Proofs.Diagram.Guard
import FsmFabric.Proofs.Diagram.Transitions
import FsmFabric.Proofs.IdMap

/-!
# The inputs that a design mentions

Guards and conditional outputs are put together from the conditions of the design. So they read no
inputs but those that the design mentions, however its parts are simplified, combined and cut into
words.
-/

namespace FsmFabric

namespace Expr

def ReadsOnly (allowed : Nat → Prop) (e : Expr) : Prop := ∀ i ∈ e.reads, allowed i

namespace ReadsOnly

variable {allowed : Nat → Prop} {a b e : Expr}

theorem simplify (only : e.ReadsOnly allowed) : e.simplify.ReadsOnly allowed :=
  fun i read => only i (e.reads_simplify read)

theorem literal (value : Bool) : (Expr.literal value).ReadsOnly allowed := by
  intro i read
  cases read

theorem truth (only : e.ReadsOnly allowed) : e.truth.ReadsOnly allowed := by
  unfold ReadsOnly
  rw [reads_truth]
  exact only

theorem negate (only : e.ReadsOnly allowed) : e.negate.ReadsOnly allowed := only.truth

theorem both (left : a.ReadsOnly allowed) (right : b.ReadsOnly allowed) :
    (a.both b).ReadsOnly allowed := by
  intro i read
  rcases List.mem_append.1 read with read | read
  · exact left.truth i read
  · exact right.truth i read

theorem either (left : a.ReadsOnly allowed) (right : b.ReadsOnly allowed) :
    (a.either b).ReadsOnly allowed :=
  left.both right

theorem foldl_both {rest : List Expr} (first : e.ReadsOnly allowed)
    (all : ∀ c ∈ rest, c.ReadsOnly allowed) : (rest.foldl Expr.both e).ReadsOnly allowed := by
  induction rest generalizing e with
  | nil => exact first
  | cons c rest ih =>
    obtain ⟨here, later⟩ := List.forall_mem_cons.1 all
    exact ih (first.both here) later

end ReadsOnly

end Expr

variable {allowed : Nat → Prop}

/-! ## Guards -/

theorem Frame.readsOnly_of_condition? {f : Frame} (only : f.test.Meets (·.ReadsOnly allowed))
    {c : Expr} (found : f.condition? = some c) : c.ReadsOnly allowed := by
  obtain ⟨id, test, visitYes, hidden⟩ := f
  cases test with
  | state => cases found
  | condition e =>
    have simplified : e.simplify.ReadsOnly allowed := Expr.ReadsOnly.simplify only
    obtain rfl := Option.some.inj found
    cases visitYes with
    | true => exact simplified.truth
    | false => exact simplified.negate

theorem Draft.Asks.readsOnly_pathGuard {d : Draft} {focus : Subtree} {frames : List Frame}
    (asks : d.Asks (·.ReadsOnly allowed) focus frames) {guard : Expr}
    (found : d.pathGuard = .ok guard) : guard.ReadsOnly allowed := by
  have conditions := openConditions_eq asks.shown.framed
  rw [← asks.shown.scopes] at conditions
  have only : ∀ c ∈ frames.filterMap Frame.condition?, c.ReadsOnly allowed := by
    intro c member
    obtain ⟨f, framed, found⟩ := List.mem_filterMap.1 member
    exact Frame.readsOnly_of_condition? (asks.frames f framed).1 found
  unfold pathGuard at found
  rw [conditions] at found
  revert found only
  cases frames.filterMap Frame.condition? with
  | nil =>
    intro found _
    exact Except.ok.inj found ▸ .literal true
  | cons e rest =>
    intro found only
    obtain ⟨first, others⟩ := List.forall_mem_cons.1 only
    exact Except.ok.inj found ▸ first.foldl_both others

namespace Diagram

theorem readsOnly_taken {guard : Option Expr} {expr : Expr}
    (outer : ∀ g ∈ guard, g.ReadsOnly allowed) (only : expr.ReadsOnly allowed) :
    (taken guard expr).ReadsOnly allowed := by
  cases guard with
  | none => exact only.simplify.truth
  | some g => exact (outer g rfl).simplify.both only.simplify

theorem readsOnly_transitionsUnder {d : Diagram} (meets : d.Meets (·.ReadsOnly allowed))
    {state : Nat} {guard : Option Expr} (outer : ∀ g ∈ guard, g.ReadsOnly allowed) :
    ∀ t ∈ d.transitionsUnder state guard, t.guard.ReadsOnly allowed := by
  induction d generalizing guard with
  | leaf output target =>
    intro t member
    obtain rfl := List.mem_singleton.1 member
    cases guard with
    | none => exact .literal true
    | some g => exact (outer g rfl).simplify
  | branch test yes no ihy ihn =>
    obtain ⟨tested, meetsY, meetsN⟩ := meets
    cases test with
    | state id =>
      unfold transitionsUnder
      split
      · exact ihy meetsY outer
      · exact ihn meetsN outer
    | condition expr =>
      intro t member
      rcases List.mem_append.1 member with member | member
      · have inner : ∀ g ∈ some (taken guard expr), g.ReadsOnly allowed := by
          rintro _ ⟨⟩
          exact readsOnly_taken outer tested
        exact ihy meetsY inner t member
      · exact ihn meetsN outer t member

end Diagram

/-! ## Conditional outputs -/

def Arm.ReadsOnly (allowed : Nat → Prop) (arm : Arm) : Prop :=
  ∀ entry ∈ arm.drives.entries, entry.2.condition.ReadsOnly allowed

namespace Arm.ReadsOnly

variable {arm : Arm}

theorem inherit (only : arm.ReadsOnly allowed) (place : Option Position) :
    (arm.inherit place).ReadsOnly allowed := by
  intro entry member
  obtain ⟨before, stored, rfl⟩ := List.mem_map.1 member
  exact (only before stored).simplify

theorem merge (only : arm.ReadsOnly allowed) {guard : Expr} (guarded : guard.ReadsOnly allowed)
    (bit : Nat) (value : Bool) : (arm.merge bit guard value).ReadsOnly allowed := by
  intro entry member
  rcases IdMap.mem_entries_insert member with rfl | member
  · dsimp only
    split
    · exact guarded
    · next d found =>
      have before : d.condition.ReadsOnly allowed := only _ (IdMap.mem_entries_of_find? found)
      split
      · exact before.either guarded
      · exact before.both guarded.negate
  · exact only entry member

theorem conditionalOutputs (only : arm.ReadsOnly allowed) :
    ∀ c ∈ arm.conditionalOutputs, c.condition.ReadsOnly allowed := by
  intro c member
  obtain ⟨entry, stored, rfl⟩ := List.mem_map.1 member
  have before := (only entry stored).simplify
  dsimp only
  split
  · exact before
  · exact before.negate

end Arm.ReadsOnly

namespace Builder

structure ReadsOnly (allowed : Nat → Prop) (b : Builder) : Prop where
  arms : ∀ entry ∈ b.arms, entry.2.ReadsOnly allowed
  shared : b.shared.ReadsOnly allowed
  defaultArm : ∀ arm, b.defaultArm = some arm → arm.ReadsOnly allowed

variable {b b' : Builder}

theorem ReadsOnly.driveConditional (only : b.ReadsOnly allowed) {guard : Expr}
    (guarded : guard.ReadsOnly allowed) (bit : Nat) (value : Bool) :
    (b.driveConditional bit guard value).ReadsOnly allowed := by
  have defaults {guard : Expr} (guarded : guard.ReadsOnly allowed) (arm : Arm)
      (found : (b.defaultArm.map fun arm => arm.merge bit guard value) = some arm) :
      arm.ReadsOnly allowed := by
    obtain ⟨before, stored, rfl⟩ := Option.map_eq_some_iff.1 found
    exact (only.defaultArm before stored).merge guarded bit value
  unfold Builder.driveConditional
  split
  · refine ⟨fun entry member => ?_, only.shared, only.defaultArm⟩
    obtain ⟨n, stored⟩ := List.mem_iff_getElem?.1 member
    rw [List.getElem?_modify] at stored
    obtain ⟨before, stored, changed⟩ := Option.map_eq_some_iff.1 stored
    have earlier := only.arms before (List.mem_of_getElem? stored)
    split at changed
    · exact changed ▸ earlier.merge guarded bit value
    · exact changed ▸ earlier
  · exact ⟨only.arms, only.shared, defaults guarded⟩
  · refine ⟨fun entry member => ?_, only.shared.merge guarded bit value, defaults guarded.simplify⟩
    obtain ⟨before, stored, rfl⟩ := List.mem_map.1 member
    exact (only.arms before stored).merge guarded.simplify bit value

/-- If all conditionals were opened with conditions on allowed inputs, the arms read no others. -/
theorem Reachable.readsOnly (reached : b.Reachable (·.ReadsOnly allowed)) :
    b.ReadsOnly allowed := by
  have nothing : Arm.ReadsOnly allowed {} := by
    intro entry member
    cases member
  induction reached with
  | fresh =>
    refine ⟨fun entry member => ?_, nothing, fun arm found => ?_⟩
    · cases member
    · cases found
  | split _ _ done ih =>
    obtain ⟨d, -, rfl⟩ := split_eq_ok.1 done
    exact ⟨ih.arms, ih.shared, ih.defaultArm⟩
  | visit _ done ih =>
    obtain ⟨d, -, rfl⟩ := visit_eq_ok.1 done
    exact ⟨ih.arms, ih.shared, ih.defaultArm⟩
  | join _ done ih =>
    obtain ⟨d, -, rfl⟩ := join_eq_ok.1 done
    exact ⟨ih.arms, ih.shared, ih.defaultArm⟩
  | setTarget _ done ih =>
    obtain ⟨d, -, rfl⟩ := setTarget_eq_ok.1 done
    exact ⟨ih.arms, ih.shared, ih.defaultArm⟩
  | @assign b b' destination value before done ih =>
    cases destination with
    | output bit =>
      obtain ⟨-, d, -, rfl⟩ := assign_output_eq_ok.1 done
      exact ⟨ih.arms, ih.shared, ih.defaultArm⟩
    | conditionalOutput bit =>
      obtain ⟨focus, frames, asks⟩ := before.exists_asks fun e only => only.simplify
      obtain ⟨guard, found, done⟩ := bind_eq_ok.1 done
      cases done
      exact ih.driveConditional (asks.readsOnly_pathGuard (liftM_eq_ok.1 found)) bit value
    | control bit =>
      simp only [Builder.assign] at done
      split at done
      · cases done
        exact ⟨ih.arms, ih.shared, ih.defaultArm⟩
      · cases done
  | splitState _ done ih =>
    obtain ⟨-, d, -, rfl⟩ := splitState_eq_ok.1 done
    refine ⟨fun entry member => ?_, ih.shared, ih.defaultArm⟩
    rcases List.mem_append.1 member with member | member
    · exact ih.arms entry member
    · obtain rfl := List.mem_singleton.1 member
      exact ih.shared.inherit _
  | openDefault _ ih =>
    refine ⟨ih.arms, ih.shared, fun arm found => ?_⟩
    cases found
    exact ih.shared.inherit _
  | @leaveSwitch b _ ih =>
    refine ⟨ih.arms, ih.shared, fun arm found => ?_⟩
    obtain rfl := Option.some.inj found
    cases before : b.defaultArm with
    | none => exact ih.shared.inherit none
    | some arm => exact ih.defaultArm arm before

theorem Reachable.readsOnly_transitions (reached : b.Reachable (·.ReadsOnly allowed))
    (state : Nat) : ∀ t ∈ b.transitions state, t.guard.ReadsOnly allowed := by
  obtain ⟨focus, frames, asks⟩ := reached.exists_asks fun e only => only.simplify
  apply Diagram.readsOnly_transitionsUnder asks.meets_diagram
  intro g missing
  cases missing

end Builder

/-! ## Entries -/

structure StateEntry.ReadsOnly (allowed : Nat → Prop) (e : StateEntry) : Prop where
  transitions : ∀ t ∈ e.transitions, t.guard.ReadsOnly allowed
  conditionalOutputs : ∀ c ∈ e.conditionalOutputs, c.condition.ReadsOnly allowed

namespace StateEntry.ReadsOnly

variable {e : StateEntry}

theorem remainder (only : e.ReadsOnly allowed) (room : Nat) :
    (e.remainder room).ReadsOnly allowed := by
  refine ⟨fun t member => only.transitions t (List.mem_of_mem_drop member), fun c member => ?_⟩
  obtain ⟨before, stored, rfl⟩ := List.mem_map.1 member
  exact (only.conditionalOutputs before stored).simplify

theorem chainWithin (only : e.ReadsOnly allowed) (room words : Nat) :
    ∀ c ∈ StateEntry.chainWithin room words e, c.ReadsOnly allowed := by
  induction words generalizing e with
  | zero =>
    intro c member
    exact List.mem_singleton.1 member ▸ only
  | succ words ih =>
    intro c member
    unfold StateEntry.chainWithin at member
    split at member
    · exact List.mem_singleton.1 member ▸ only
    · rcases List.mem_cons.1 member with rfl | member
      · exact ⟨fun t member => only.transitions t (List.mem_of_mem_take member),
          only.conditionalOutputs⟩
      · exact ih (only.remainder room) c member

end StateEntry.ReadsOnly

namespace Design

def reads (d : Design) : List Nat :=
  d.events.flatMap fun
    | .split condition _ => condition.reads
    | _ => []

/-- A replayed design opens conditionals only on inputs that it mentions. -/
theorem readsOnly_of_replay {d : Design} {b : Builder} (replayed : d.replay = .ok b) :
    b.Reachable (·.ReadsOnly (· ∈ d.reads)) := by
  apply reachable_of_replayFrom .fresh _ (replay_eq_ok.1 replayed)
  intro condition place member
  apply Expr.ReadsOnly.simplify
  intro i read
  exact List.mem_flatMap.2 ⟨_, member, read⟩

end Design

end FsmFabric
