import FsmFabric.Proofs.Design
import FsmFabric.Proofs.Diagram.Guard
import FsmFabric.Proofs.IdMap

/-!
# Conditional outputs as sequential assignments

Read from top to bottom, a design assigns conditional outputs under the conditionals that are open
at that point: for some states, for all others, or for all of them. `Cursor` follows the text and
collects these assignments. On any inputs, the last assignment that applies decides, and where none
applies the output has the opposite of the first value. The arms of a replayed design drive exactly
these values.
-/

namespace FsmFabric

/-! ## Assignments in a text -/

/-- The states that an assignment is for. -/
inductive Owner where
  | all
  | state (id : Nat)
  /-- All states that have no arm of their own, in the default arm with this number. -/
  | default (number : Nat)
deriving DecidableEq

/-- An assignment to a conditional output, with the tests around it and the side of each. -/
structure Assignment where
  owner : Owner
  bit : Nat
  path : List (Test × Bool)
  value : Bool

namespace Assignment

def applies (a : Assignment) (x : Nat → Bool) : Bool :=
  a.path.all fun scope => scope.1.admits x scope.2

/-- The assignments to a bit that count for an owner. -/
def relevant (owner : Owner) (bit : Nat) (log : List Assignment) : List Assignment :=
  log.filter fun a => a.bit == bit && (a.owner == .all || a.owner == owner)

/-- The value that assignments leave: that of the last one that applies, or the opposite of the
first value if none does. -/
def outcome (x : Nat → Bool) (first : Assignment) (rest : List Assignment) : Bool :=
  (((first :: rest).filter (·.applies x)).getLast?.map (·.value)).getD (!first.value)

theorem outcome_nil (x : Nat → Bool) (first : Assignment) :
    outcome x first [] = if first.applies x then first.value else !first.value := by
  unfold outcome
  cases applies : first.applies x <;> simp [applies]

theorem outcome_concat (x : Nat → Bool) (first : Assignment) (rest : List Assignment)
    (a : Assignment) :
    outcome x first (rest ++ [a]) = if a.applies x then a.value else outcome x first rest := by
  unfold outcome
  rw [← List.cons_append, List.filter_append]
  cases applies : a.applies x <;> simp [applies]

end Assignment

/-- A point in the text of a design. -/
structure Cursor where
  /-- The open tests, innermost first, with the side of each. -/
  path : List (Test × Bool) := []
  owner : Owner := .all
  /-- The number of default arms so far. -/
  defaults : Nat := 0

namespace Cursor

def step (c : Cursor) : Event → Cursor
  | .split condition _ => { c with path := (.condition condition, true) :: c.path }
  | .visit yes => { c with path := c.path.modifyHead fun scope => (scope.1, yes) }
  | .join => { c with path := c.path.tail }
  | .splitState state _ =>
    { c with path := (.state state, true) :: c.path, owner := .state state }
  | .openDefault _ => { c with owner := .default (c.defaults + 1), defaults := c.defaults + 1 }
  | .leaveSwitch => { c with owner := .all }
  | .assign .. | .setTarget _ | .enterSwitch _ => c

def assignment? (c : Cursor) : Event → Option Assignment
  | .assign (.conditionalOutput bit) value => some ⟨c.owner, bit, c.path, value⟩
  | _ => none

/-- The assignments to conditional outputs from a point on, in order. -/
def assignments (c : Cursor) : List Event → List Assignment
  | [] => []
  | event :: rest => (c.assignment? event).toList ++ (c.step event).assignments rest

end Cursor

/-- What remains of assignments among the conditional outputs for one bit: nothing without an
assignment, otherwise one output with the value that they leave. -/
def Assignment.Driven : List Assignment → List ConditionalOutput → Prop
  | [], outputs => outputs = []
  | first :: rest, outputs =>
    ∃ c, outputs = [c] ∧ ∀ x, c.condition.eval x = Expr.bit (outcome x first rest)

/-! ## Drives -/

/-- The drive holds its value where the assignments leave it. -/
def Drive.Follows (d : Drive) : List Assignment → Prop
  | [] => False
  | first :: rest =>
    d.value = first.value ∧
      d.condition.Means fun x => Assignment.outcome x first rest == first.value

theorem Drive.Follows.exists_first {d : Drive} {log : List Assignment} (follows : d.Follows log) :
    ∃ first rest, log = first :: rest ∧ d.value = first.value ∧
      d.condition.Means fun x => Assignment.outcome x first rest == first.value := by
  cases log with
  | nil => exact follows.elim
  | cons first rest => exact ⟨first, rest, rfl, follows⟩

/-- An arm drives what the assignments for an owner leave. -/
structure Arm.Reflects (arm : Arm) (owner : Owner) (log : List Assignment) : Prop where
  ascending : arm.drives.Ascending
  absent : ∀ bit, arm.drives.find? bit = none → Assignment.relevant owner bit log = []
  present : ∀ bit d, arm.drives.find? bit = some d → d.Follows (Assignment.relevant owner bit log)

namespace Arm.Reflects

variable {arm : Arm} {owner : Owner} {log : List Assignment} {a : Assignment}

theorem fresh (owner : Owner) : Arm.Reflects {} owner [] :=
  ⟨List.Pairwise.nil, fun _ _ => rfl, fun _ _ found => nomatch found⟩

/-- An assignment for somebody else changes nothing. -/
theorem skip (reflects : arm.Reflects owner log) (others : a.owner ≠ .all)
    (other : a.owner ≠ owner) : arm.Reflects owner (log ++ [a]) := by
  have same (bit : Nat) :
      Assignment.relevant owner bit (log ++ [a]) = Assignment.relevant owner bit log := by
    simp [Assignment.relevant, others, other]
  refine ⟨reflects.ascending, fun bit none => ?_, fun bit d found => ?_⟩
  · rw [same]
    exact reflects.absent bit none
  · rw [same]
    exact reflects.present bit d found

theorem merge (reflects : arm.Reflects owner log) (mine : a.owner = .all ∨ a.owner = owner)
    {guard : Expr} (means : guard.Means a.applies) :
    (arm.merge a.bit guard a.value).Reflects owner (log ++ [a]) := by
  have elsewhere {bit : Nat} (differs : bit ≠ a.bit) :
      Assignment.relevant owner bit (log ++ [a]) = Assignment.relevant owner bit log := by
    simp [Assignment.relevant, Ne.symm differs]
  have here : Assignment.relevant owner a.bit (log ++ [a]) =
      Assignment.relevant owner a.bit log ++ [a] := by
    simp [Assignment.relevant, mine]
  refine ⟨reflects.ascending.insert _ _, fun bit none => ?_, fun bit d found => ?_⟩
  · rw [Arm.merge, IdMap.find?_insert] at none
    split at none
    · cases none
    · next differs =>
      rw [elsewhere differs]
      exact reflects.absent bit none
  · rw [Arm.merge, IdMap.find?_insert] at found
    split at found
    · next same =>
      subst same
      obtain rfl := Option.some.inj found
      rw [here]
      cases before : arm.drives.find? a.bit with
      | none =>
        rw [reflects.absent _ before]
        refine ⟨rfl, means.congr fun x => ?_⟩
        rw [Assignment.outcome_nil]
        cases a.applies x <;> cases a.value <;> rfl
      | some d =>
        obtain ⟨first, rest, earlier, value, meaning⟩ := (reflects.present _ d before).exists_first
        rw [earlier, List.cons_append]
        -- the first value decides whether the guard is added or taken away
        by_cases same : d.value = a.value
        · simp only [same, if_true]
          refine ⟨same ▸ value, (meaning.either means).congr fun x => ?_⟩
          rw [Assignment.outcome_concat, ← value, same]
          cases a.applies x
          · simp
          · simp
        · simp only [same, if_false]
          refine ⟨value, (meaning.both (.negate means.coerced)).congr fun x => ?_⟩
          rw [Assignment.outcome_concat, means.holds, ← value]
          cases a.applies x
          · simp
          · simpa using Ne.symm same
    · next differs =>
      rw [elsewhere differs]
      exact reflects.present bit d found

/-- An owner without assignments of its own has those for all. -/
theorem ofAll (reflects : arm.Reflects .all log) (unused : ∀ a ∈ log, a.owner ≠ owner) :
    arm.Reflects owner log := by
  have same (bit : Nat) : Assignment.relevant owner bit log = Assignment.relevant .all bit log := by
    apply List.filter_congr
    intro a member
    rw [beq_false_of_ne (unused a member), Bool.or_false, Bool.or_self]
  refine ⟨reflects.ascending, fun bit none => ?_, fun bit d found => ?_⟩
  · rw [same]
    exact reflects.absent bit none
  · rw [same]
    exact reflects.present bit d found

theorem inherit (reflects : arm.Reflects owner log) (place : Option Position) :
    (arm.inherit place).Reflects owner log := by
  have find (bit : Nat) : (arm.inherit place).drives.find? bit = (arm.drives.find? bit).map
      fun d => { d with condition := d.condition.simplify } :=
    IdMap.lookup_map (fun d : Drive => ⟨d.value, d.condition.simplify⟩) bit arm.drives.entries
  refine ⟨?_, fun bit none => ?_, fun bit d found => ?_⟩
  · have keys : (arm.inherit place).drives.entries.map (·.1) = arm.drives.entries.map (·.1) := by
      simp [Arm.inherit, Function.comp_def]
    unfold IdMap.Ascending
    rw [keys]
    exact reflects.ascending
  · rw [find, Option.map_eq_none_iff] at none
    exact reflects.absent bit none
  · rw [find] at found
    obtain ⟨shared, stored, rfl⟩ := Option.map_eq_some_iff.1 found
    obtain ⟨first, rest, earlier, value, means⟩ := (reflects.present bit shared stored).exists_first
    rw [earlier]
    exact ⟨value, means.simplify⟩

theorem driven (reflects : arm.Reflects owner log) (bit : Nat) :
    Assignment.Driven (Assignment.relevant owner bit log)
      (arm.conditionalOutputs.filter (·.output == bit)) := by
  have outputs : arm.conditionalOutputs.filter (·.output == bit) =
      (arm.drives.entries.filter (·.1 == bit)).map fun entry => ⟨entry.1,
        if entry.2.value then entry.2.condition.simplify else entry.2.condition.simplify.negate⟩ :=
    List.filter_map
  rw [outputs, IdMap.filter_entries reflects.ascending bit]
  cases found : arm.drives.find? bit with
  | none =>
    rw [reflects.absent bit found]
    rfl
  | some d =>
    obtain ⟨first, rest, earlier, value, means⟩ := (reflects.present bit d found).exists_first
    rw [earlier]
    refine ⟨_, rfl, fun x => ?_⟩
    have simplified := means.simplify
    simp only [value]
    cases side : first.value with
    | true => rw [if_pos rfl, simplified.eval, side, beq_true]
    | false =>
      rw [if_neg Bool.false_ne_true, (Expr.Means.negate simplified.coerced).eval,
        simplified.holds, side, beq_false, Bool.not_not]

end Arm.Reflects

/-! ## Along a replay -/

/-- The owner of the assignments that an active arm takes. -/
def Active.owner? (states : List Nat) (defaults : Nat) : Active → Option Owner
  | outside => some .all
  | declared index => states[index]?.map .state
  | .default => some (.default defaults)

/-- A builder stands at a point of the text and holds what the assignments before it leave. -/
structure Builder.Records (b : Builder) (c : Cursor) (log : List Assignment) : Prop where
  shown : ∃ focus frames, b.draft.Shows focus frames ∧
    frames.map (fun f => (f.test, f.visitYes)) = c.path.map fun scope => (scope.1.simplify, scope.2)
  coerced : ∀ scope ∈ c.path, scope.1.Meets (·.isCoerced)
  nodup : b.states.Nodup
  active : b.active.owner? b.states c.defaults = some c.owner
  arms : ∀ entry ∈ b.arms, entry.2.Reflects (.state entry.1) log
  shared : b.shared.Reflects .all log
  defaultArm : ∀ arm, b.defaultArm = some arm → arm.Reflects (.default c.defaults) log
  unopened : b.defaultArm = none → c.defaults = 0
  opened : b.active = .default → 0 < c.defaults
  declared : ∀ a ∈ log, ∀ state, a.owner = .state state → state ∈ b.states
  numbered : ∀ a ∈ log, ∀ number, a.owner = .default number → 0 < number ∧ number ≤ c.defaults

namespace Builder.Records

variable {b b' : Builder} {c : Cursor} {log : List Assignment}

theorem fresh : Builder.fresh.Records {} [] where
  shown := ⟨_, [], Draft.fresh_shows, rfl⟩
  coerced scope member := by cases member
  nodup := List.nodup_nil
  active := rfl
  arms entry member := by cases member
  shared := .fresh .all
  defaultArm arm found := by cases found
  unopened _ := rfl
  opened active := by cases active
  declared a member := by cases member
  numbered a member := by cases member

/-- A change of the draft alone. -/
theorem redraft (records : b.Records c log) {d : Draft} {focus : Subtree} {frames : List Frame}
    (shown : d.Shows focus frames) {path : List (Test × Bool)}
    (same : frames.map (fun f => (f.test, f.visitYes)) =
      path.map fun scope => (scope.1.simplify, scope.2))
    (coerced : ∀ scope ∈ path, scope.1.Meets (·.isCoerced)) :
    Builder.Records { b with draft := d } { c with path } log :=
  { records with shown := ⟨focus, frames, shown, same⟩, coerced }

/-- The guard at this point holds for the inputs that lead to it. -/
theorem exists_pathGuard (records : b.Records c log) (owner : Owner) (bit : Nat) (value : Bool) :
    ∃ guard, b.draft.pathGuard = .ok guard ∧
      guard.Means (Assignment.applies ⟨owner, bit, c.path, value⟩) := by
  obtain ⟨focus, frames, shown, same⟩ := records.shown
  have coerced : ∀ f ∈ frames, f.test.Meets (·.isCoerced) := by
    intro f framed
    have member : (f.test, f.visitYes) ∈ c.path.map fun scope => (scope.1.simplify, scope.2) :=
      same ▸ List.mem_map_of_mem framed
    obtain ⟨scope, inPath, pair⟩ := List.mem_map.1 member
    rw [← (Prod.mk.inj pair).1]
    apply Test.Meets.simplify _ (records.coerced scope inPath)
    intro e coerced
    exact (Expr.simplify_standsFor coerced).coerced
  obtain ⟨guard, found, means⟩ := shown.exists_pathGuard coerced
  refine ⟨guard, found, means.congr fun x => ?_⟩
  calc frames.all (fun f => f.test.admits x f.visitYes)
      = (frames.map fun f => (f.test, f.visitYes)).all (fun s => s.1.admits x s.2) := by
        rw [List.all_map]
        rfl
    _ = c.path.all (fun scope => scope.1.simplify.admits x scope.2) := by
        rw [same, List.all_map]
        rfl
    _ = c.path.all (fun scope => scope.1.admits x scope.2) := by
        rw [Bool.eq_iff_iff, List.all_eq_true, List.all_eq_true]
        refine forall₂_congr fun scope inPath => ?_
        rw [Test.admits_simplify (records.coerced scope inPath)]

/-- One more assignment by the active owner, if all arms reflect it. -/
theorem extend (records : b.Records c log) {a : Assignment} (owner : a.owner = c.owner)
    (draft : b'.draft = b.draft) (states : b'.states = b.states) (active : b'.active = b.active)
    (none : b'.defaultArm = none → b.defaultArm = none)
    (arms : ∀ entry ∈ b'.arms, entry.2.Reflects (.state entry.1) (log ++ [a]))
    (shared : b'.shared.Reflects .all (log ++ [a]))
    (defaultArm : ∀ arm, b'.defaultArm = some arm →
      arm.Reflects (.default c.defaults) (log ++ [a])) :
    b'.Records c (log ++ [a]) where
  shown := draft ▸ records.shown
  coerced := records.coerced
  nodup := states ▸ records.nodup
  active := active ▸ states ▸ records.active
  arms := arms
  shared := shared
  defaultArm := defaultArm
  unopened unset := records.unopened (none unset)
  opened := active ▸ records.opened
  declared := by
    rw [states]
    intro a' member state named
    rcases List.mem_append.1 member with member | member
    · exact records.declared a' member state named
    · obtain rfl := List.mem_singleton.1 member
      have current := records.active
      rw [← owner, named] at current
      cases arm : b.active with
      | declared index =>
        rw [arm] at current
        obtain ⟨found, stored, same⟩ := Option.map_eq_some_iff.1 current
        rw [← Owner.state.inj same]
        exact List.mem_of_getElem? stored
      | outside | default =>
        rw [arm] at current
        cases current
  numbered := by
    intro a' member number named
    rcases List.mem_append.1 member with member | member
    · exact records.numbered a' member number named
    · obtain rfl := List.mem_singleton.1 member
      have current := records.active
      rw [← owner, named] at current
      cases arm : b.active with
      | default =>
        rw [arm] at current
        have same := Owner.default.inj (Option.some.inj current)
        exact ⟨same ▸ records.opened arm, same.ge⟩
      | declared index =>
        rw [arm] at current
        obtain ⟨found, -, same⟩ := Option.map_eq_some_iff.1 current
        cases same
      | outside =>
        rw [arm] at current
        cases current

theorem drive (records : b.Records c log) {a : Assignment} (owner : a.owner = c.owner)
    {guard : Expr} (means : guard.Means a.applies) :
    (b.driveConditional a.bit guard a.value).Records c (log ++ [a]) := by
  have current := records.active
  rw [← owner] at current
  have states := states_driveConditional b a.bit guard a.value
  unfold driveConditional at states ⊢
  cases arm : b.active with
  | outside =>
    simp only [arm] at states ⊢
    rw [arm] at current
    have all : a.owner = .all := (Option.some.inj current).symm
    refine records.extend owner rfl states arm.symm ?_ ?_ (records.shared.merge (.inl all) means) ?_
    · exact fun unset => Option.map_eq_none_iff.1 unset
    · intro entry member
      obtain ⟨before, stored, rfl⟩ := List.mem_map.1 member
      exact (records.arms before stored).merge (.inl all) means.simplify
    · intro new found
      obtain ⟨before, stored, rfl⟩ := Option.map_eq_some_iff.1 found
      exact (records.defaultArm before stored).merge (.inl all) means.simplify
  | declared index =>
    simp only [arm] at states ⊢
    rw [arm] at current
    obtain ⟨state, found, named⟩ := Option.map_eq_some_iff.1 current
    have others : a.owner ≠ .all := by simp [← named]
    refine records.extend owner rfl states arm.symm id ?_ (records.shared.skip others others) ?_
    · intro entry member
      obtain ⟨n, inside, stored⟩ := List.getElem_of_mem member
      have stored := (List.getElem?_eq_getElem inside).trans (congrArg some stored)
      rw [List.getElem?_modify] at stored
      obtain ⟨before, stored, changed⟩ := Option.map_eq_some_iff.1 stored
      have reflects := records.arms before (List.mem_of_getElem? stored)
      have state_eq : b.states[n]? = some before.1 := by
        rw [Builder.states, List.getElem?_map, stored]
        rfl
      split at changed
      · next same =>
        subst changed same
        obtain rfl : before.1 = state := Option.some.inj (state_eq.symm.trans found)
        exact reflects.merge (.inr named.symm) means
      · next differs =>
        subst changed
        refine reflects.skip others fun same => differs ?_
        have stateSame : before.1 = state := Owner.state.inj (same.symm.trans named.symm)
        obtain ⟨insideStates, -⟩ := List.getElem?_eq_some_iff.1 found
        exact (List.getElem?_inj insideStates records.nodup).1
          (found.trans (stateSame ▸ state_eq.symm))
    · intro new stored
      exact (records.defaultArm new stored).skip others (by simp [← named])
  | default =>
    simp only [arm] at states ⊢
    rw [arm] at current
    have named : a.owner = .default c.defaults := (Option.some.inj current).symm
    have others : a.owner ≠ .all := by simp [named]
    refine records.extend owner rfl states arm.symm ?_ ?_ (records.shared.skip others others) ?_
    · exact fun unset => Option.map_eq_none_iff.1 unset
    · intro entry member
      exact (records.arms entry member).skip others (by simp [named])
    · intro new found
      obtain ⟨before, stored, rfl⟩ := Option.map_eq_some_iff.1 found
      exact (records.defaultArm before stored).merge (.inr named) means

theorem openState (records : b.Records c log) {state : Nat} {place : Option Position}
    (done : b.splitState state place = .ok b') :
    b'.Records (c.step (.splitState state place)) log := by
  obtain ⟨new, d, drafted, rfl⟩ := splitState_eq_ok.1 done
  obtain ⟨focus, frames, shown, same⟩ := records.shown
  obtain ⟨d', id, copy, drafted', -, shown'⟩ := shown.exists_split (.state state)
  obtain rfl := Except.ok.inj (drafted.symm.trans drafted')
  have unused : ∀ a ∈ log, a.owner ≠ .state state := fun a member named =>
    new (records.declared a member state named)
  have states : (b.arms ++ [(state, b.shared.inherit place)]).map (·.1) = b.states ++ [state] :=
    List.map_append
  refine { records with
    shown := ⟨focus, _, shown', by simp [Cursor.step, same, Test.simplify]⟩
    coerced := List.forall_mem_cons.2 ⟨trivial, records.coerced⟩
    nodup := ?_, active := ?_, arms := ?_, declared := ?_
    opened := fun active => by cases active }
  · rw [Builder.states, states]
    exact records.nodup.append (List.nodup_singleton _) (by simpa using new)
  · simp [Active.owner?, Builder.states, Cursor.step]
  · intro entry member
    rcases List.mem_append.1 member with member | member
    · exact records.arms entry member
    · obtain rfl := List.mem_singleton.1 member
      exact (records.shared.ofAll unused).inherit place
  · intro a member other named
    rw [Builder.states, states]
    exact List.mem_append_left _ (records.declared a member other named)

theorem openDefault (records : b.Records c log) (place : Option Position) :
    (b.openDefault place).Records (c.step (.openDefault place)) log := by
  have unused : ∀ a ∈ log, a.owner ≠ .default (c.defaults + 1) := fun a member named =>
    absurd (records.numbered a member _ named).2 (Nat.not_succ_le_self _)
  exact { records with
    active := rfl
    defaultArm := fun arm found =>
      Option.some.inj found ▸ (records.shared.ofAll unused).inherit place
    unopened := fun unset => by cases unset
    opened := fun _ => Nat.succ_pos _
    numbered := fun a member number named =>
      (records.numbered a member number named).imp id Nat.le_succ_of_le }

theorem leaveSwitch (records : b.Records c log) :
    b.leaveSwitch.Records (c.step .leaveSwitch) log := by
  refine { records with active := rfl, defaultArm := ?_, unopened := ?_, opened := ?_ }
  · intro arm found
    obtain rfl := Option.some.inj found
    cases before : b.defaultArm with
    | some arm => exact records.defaultArm arm before
    | none =>
      have unused : ∀ a ∈ log, a.owner ≠ .default c.defaults := fun a member named => by
        have range := records.numbered a member _ named
        rw [records.unopened before] at range
        omega
      exact (records.shared.ofAll unused).inherit none
  · exact fun unset => by cases unset
  · exact fun active => by cases active

/-- An event that assigns no conditional output. -/
theorem pass (records : b.Records c log) {event : Event}
    (coerced : ∀ condition place, event = .split condition place → condition.isCoerced = true)
    (done : b.apply event = .ok b') (plain : c.assignment? event = none) :
    b'.Records (c.step event) log := by
  obtain ⟨focus, frames, shown, same⟩ := records.shown
  cases event with
  | split condition place =>
    obtain ⟨d, drafted, rfl⟩ := split_eq_ok.1 done
    obtain ⟨d', id, copy, drafted', -, shown'⟩ :=
      shown.exists_split (.condition condition.simplify)
    obtain rfl := Except.ok.inj (drafted.symm.trans drafted')
    refine records.redraft shown' ?_
      (List.forall_mem_cons.2 ⟨coerced condition place rfl, records.coerced⟩)
    rw [List.map_cons, List.map_cons, same]
    rfl
  | visit yes =>
    obtain ⟨d, drafted, rfl⟩ := visit_eq_ok.1 done
    cases frames with
    | nil => cases (Draft.visit_of_scopes_nil shown.scopes yes).symm.trans drafted
    | cons f rest =>
      cases path : c.path with
      | nil =>
        rw [path] at same
        cases same
      | cons scope outer =>
        rw [path, List.map_cons, List.map_cons, List.cons.injEq, Prod.mk.injEq] at same
        obtain ⟨⟨test, side⟩, same⟩ := same
        obtain ⟨d', drafted', shown'⟩ := shown.exists_visit yes
        obtain rfl := Except.ok.inj (drafted.symm.trans drafted')
        have coerced := records.coerced
        rw [path] at coerced
        obtain ⟨coercedHead, coercedTail⟩ := List.forall_mem_cons.1 coerced
        rw [Cursor.step, path, List.modifyHead_cons]
        have head : ∀ scope' ∈ (scope.1, yes) :: outer, scope'.1.Meets (·.isCoerced) :=
          List.forall_mem_cons.2 ⟨coercedHead, coercedTail⟩
        split at shown'
        · next visible =>
          refine records.redraft shown' ?_ head
          rw [List.map_cons, List.map_cons, same, test, visible]
        · next hidden =>
          refine records.redraft shown' ?_ head
          rw [List.map_cons, List.map_cons, same, Frame.flip, test]
          cases yes <;> cases visible : f.visitYes <;> simp_all
  | join =>
    obtain ⟨d, drafted, rfl⟩ := join_eq_ok.1 done
    cases frames with
    | nil => cases (Draft.join_of_scopes_nil shown.scopes).symm.trans drafted
    | cons f rest =>
      obtain ⟨d', drafted', shown'⟩ := shown.exists_join
      obtain rfl := Except.ok.inj (drafted.symm.trans drafted')
      have outer : rest.map (fun f => (f.test, f.visitYes)) =
          c.path.tail.map fun scope => (scope.1.simplify, scope.2) := by
        rw [List.map_tail, ← same]
        rfl
      have coerced : ∀ scope ∈ c.path.tail, scope.1.Meets (·.isCoerced) :=
        fun scope member => records.coerced scope (List.mem_of_mem_tail member)
      split at shown'
      · exact records.redraft shown' outer coerced
      · exact records.redraft shown' outer coerced
  | assign destination value =>
    cases destination with
    | output bit =>
      obtain ⟨-, d, drafted, rfl⟩ := assign_output_eq_ok.1 done
      obtain ⟨d', drafted', shown'⟩ :=
        shown.exists_changeLeaves fun leaf => (leaf.1.put bit value, leaf.2)
      obtain rfl := Except.ok.inj (drafted.symm.trans drafted')
      exact records.redraft shown' same records.coerced
    | conditionalOutput bit => cases plain
    | control bit =>
      simp only [apply, assign] at done
      split at done
      · obtain rfl := Except.ok.inj done
        exact { records with }
      · cases done
  | setTarget state =>
    obtain ⟨d, drafted, rfl⟩ := setTarget_eq_ok.1 done
    obtain ⟨d', drafted', shown'⟩ := shown.exists_changeLeaves fun leaf => (leaf.1, state)
    obtain rfl := Except.ok.inj (drafted.symm.trans drafted')
    exact records.redraft shown' same records.coerced
  | splitState state place =>
    exact records.openState done
  | openDefault place =>
    obtain rfl := Except.ok.inj done
    exact records.openDefault place
  | enterSwitch name =>
    obtain rfl := Except.ok.inj done
    exact records
  | leaveSwitch =>
    obtain rfl := Except.ok.inj done
    exact records.leaveSwitch

/-- Every event leads to the next point of the text. -/
theorem step (records : b.Records c log) {event : Event}
    (coerced : ∀ condition place, event = .split condition place → condition.isCoerced = true)
    (done : b.apply event = .ok b') :
    b'.Records (c.step event) (log ++ (c.assignment? event).toList) := by
  cases found : c.assignment? event with
  | none =>
    rw [Option.toList_none, List.append_nil]
    exact records.pass coerced done found
  | some a =>
    unfold Cursor.assignment? at found
    split at found
    · next bit value =>
      obtain rfl := Option.some.inj found
      obtain ⟨guard, guarded, means⟩ := records.exists_pathGuard c.owner bit value
      simp only [apply, assign, guarded, liftM_ok] at done
      obtain rfl := Except.ok.inj done
      exact records.drive (a := ⟨c.owner, bit, c.path, value⟩) rfl means
    · cases found

theorem of_replayFrom (records : b.Records c log) {places places' : List (Option Position)}
    {events : List Event}
    (coerced : ∀ condition place, .split condition place ∈ events → condition.isCoerced = true)
    (done : Design.replayFrom b places events = .ok (b', places')) :
    b'.Records (events.foldl Cursor.step c) (log ++ c.assignments events) := by
  induction events generalizing b c log places with
  | nil =>
    cases done
    rw [Cursor.assignments, List.append_nil]
    exact records
  | cons event rest ih =>
    unfold Design.replayFrom at done
    split at done
    · cases done
    · obtain ⟨next, applied, done⟩ := bind_eq_ok.1 done
      have records' := records.step
        (fun condition place here => coerced condition place (here ▸ List.mem_cons_self)) applied
      rw [Cursor.assignments, ← List.append_assoc]
      exact ih records' (fun condition place member =>
        coerced condition place (List.mem_cons_of_mem _ member)) done

/-- The arm of every other state, or the assignments for all if there is none. -/
theorem fallback (records : b.Records c log) :
    (b.defaultArm.getD b.shared).Reflects (.default c.defaults) log := by
  cases before : b.defaultArm with
  | some arm => exact records.defaultArm arm before
  | none =>
    apply records.shared.ofAll
    intro a member named
    have range := records.numbered a member _ named
    rw [records.unopened before] at range
    omega

end Builder.Records

/-! ## Replayed designs -/

/-- The state that an event declares. -/
def Event.declares? : Event → Option Nat
  | splitState state _ => some state
  | _ => none

theorem Builder.states_of_apply {b b' : Builder} {event : Event} (done : b.apply event = .ok b') :
    b'.states = b.states ++ event.declares?.toList := by
  cases event with
  | split condition place =>
    obtain ⟨d, -, rfl⟩ := split_eq_ok.1 done
    exact (List.append_nil _).symm
  | visit yes =>
    obtain ⟨d, -, rfl⟩ := visit_eq_ok.1 done
    exact (List.append_nil _).symm
  | join =>
    obtain ⟨d, -, rfl⟩ := join_eq_ok.1 done
    exact (List.append_nil _).symm
  | assign destination value => exact (kept_of_assign done).1.trans (List.append_nil _).symm
  | setTarget state =>
    obtain ⟨d, -, rfl⟩ := setTarget_eq_ok.1 done
    exact (List.append_nil _).symm
  | splitState state place =>
    obtain ⟨-, d, -, rfl⟩ := splitState_eq_ok.1 done
    exact List.map_append
  | openDefault | enterSwitch | leaveSwitch =>
    obtain rfl := Except.ok.inj done
    exact (List.append_nil _).symm

namespace Design

theorem states_of_replayFrom {b b' : Builder} {places places' : List (Option Position)}
    {events : List Event} (done : replayFrom b places events = .ok (b', places')) :
    b'.states = b.states ++ events.filterMap Event.declares? := by
  induction events generalizing b places with
  | nil =>
    cases done
    exact (List.append_nil _).symm
  | cons event rest ih =>
    unfold replayFrom at done
    split at done
    · cases done
    · obtain ⟨next, applied, done⟩ := bind_eq_ok.1 done
      rw [ih done, Builder.states_of_apply applied, List.append_assoc]
      cases found : event.declares? with
      | none => simp [found]
      | some state => simp [found]

def assignments (d : Design) : List Assignment := Cursor.assignments {} d.events

def lastDefault (d : Design) : Owner := .default (d.events.foldl Cursor.step {}).defaults

/-- A replayed design with coerced conditions has one arm for each state that it declares. The
conditional outputs of the arm have the values that the assignments of the text leave for the state,
and those of the fallback have the values for the last default arm. -/
theorem conditionalOutputs_follow_assignments {d : Design} {b : Builder}
    (coerced : ∀ condition place, .split condition place ∈ d.events → condition.isCoerced = true)
    (replayed : d.replay = .ok b) (bit : Nat) :
    b.states = d.events.filterMap Event.declares? ∧ b.states.Nodup ∧
      (∀ entry ∈ b.arms, Assignment.Driven (Assignment.relevant (.state entry.1) bit d.assignments)
        (entry.2.conditionalOutputs.filter (·.output == bit))) ∧
      Assignment.Driven (Assignment.relevant d.lastDefault bit d.assignments)
        ((b.defaultArm.getD b.shared).conditionalOutputs.filter (·.output == bit)) := by
  rw [replay_eq_ok] at replayed
  have records := Builder.Records.fresh.of_replayFrom coerced replayed
  rw [List.nil_append] at records
  exact ⟨states_of_replayFrom replayed, records.nodup,
    fun entry member => (records.arms entry member).driven bit, records.fallback.driven bit⟩

/-- Output 0 is set outside of the switch while input 0 is set, cleared in the arm of state 5 while
input 1 is clear, and set again behind the switch while input 2 is set. The default arm opens
twice. -/
def overridden : Design where
  module := "overridden"
  events := [.split (.input 0) none, .assign (.conditionalOutput 0) true, .join,
    .enterSwitch "state",
    .splitState 5 none, .split (.input 1) none, .visit false,
    .assign (.conditionalOutput 0) false, .join, .visit false,
    .openDefault none, .assign (.conditionalOutput 0) false,
    .openDefault none, .assign (.conditionalOutput 1) false, .join, .leaveSwitch,
    .split (.input 2) none, .assign (.conditionalOutput 0) true, .join]

theorem conditionalOutputs_follow_assignments_overridden :
    ∃ b, overridden.replay = .ok b ∧ b.states = [5] ∧
      (∀ entry ∈ b.arms, entry.2.conditionalOutputs.filter (·.output == 1) = [] ∧
        ∃ c, entry.2.conditionalOutputs.filter (·.output == 0) = [c] ∧
          ∀ x, c.condition.eval x = Expr.bit (if x 2 then true else if !x 1 then false else x 0)) ∧
      ∃ c, (b.defaultArm.getD b.shared).conditionalOutputs.filter (·.output == 0) = [c] ∧
        ∀ x, c.condition.eval x = Expr.bit (if x 2 then true else x 0) := by
  obtain ⟨b, replayed⟩ : ∃ b, overridden.replay = .ok b := ⟨_, rfl⟩
  have coerced : ∀ condition place, .split condition place ∈ overridden.events →
      condition.isCoerced = true := by
    intro condition place member
    simp only [overridden, List.mem_cons, List.not_mem_nil, Event.split.injEq, reduceCtorEq,
      false_or, or_false] at member
    rcases member with ⟨rfl, -⟩ | ⟨rfl, -⟩ | ⟨rfl, -⟩ <;> rfl
  have holds (i : Nat) (x : Nat → Bool) : (Expr.input i).holds x = x i := by
    rw [Bool.eq_iff_iff, Expr.holds, Mask.any_iff]
    simp [Expr.input, Expr.eval]
  have own : Assignment.relevant (.state 5) 0 overridden.assignments =
      [⟨.all, 0, [(.condition (.input 0), true)], true⟩,
        ⟨.state 5, 0, [(.condition (.input 1), false), (.state 5, true)], false⟩,
        ⟨.all, 0, [(.condition (.input 2), true)], true⟩] := rfl
  have others : Assignment.relevant overridden.lastDefault 0 overridden.assignments =
      [⟨.all, 0, [(.condition (.input 0), true)], true⟩,
        ⟨.all, 0, [(.condition (.input 2), true)], true⟩] := rfl
  obtain ⟨states, -, arms, fallback⟩ := conditionalOutputs_follow_assignments coerced replayed 0
  obtain ⟨-, -, arms', -⟩ := conditionalOutputs_follow_assignments coerced replayed 1
  refine ⟨b, replayed, states, fun entry member => ?_, ?_⟩
  · obtain ⟨state, arm⟩ := entry
    obtain rfl : state = 5 := by
      have named : state ∈ b.states := List.mem_map_of_mem member
      rw [states] at named
      exact List.mem_singleton.1 named
    obtain ⟨c, single, value⟩ := own ▸ arms _ member
    refine ⟨arms' _ member, c, single, fun x => (value x).trans (congrArg Expr.bit ?_)⟩
    cases h0 : x 0 <;> cases h1 : x 1 <;> cases h2 : x 2 <;>
      simp [Assignment.outcome, Assignment.applies, Test.admits, holds, h0, h1, h2]
  · obtain ⟨c, single, value⟩ := others ▸ fallback
    refine ⟨c, single, fun x => (value x).trans (congrArg Expr.bit ?_)⟩
    cases h0 : x 0 <;> cases h2 : x 2 <;>
      simp [Assignment.outcome, Assignment.applies, Test.admits, holds, h0, h2]

end Design

end FsmFabric
