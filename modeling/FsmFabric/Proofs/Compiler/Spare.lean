import FsmFabric.Proofs.Compiler.Step
import FsmFabric.Proofs.Diagram.Effects
import FsmFabric.Proofs.Diagram.Transitions

/-!
# Words that no declared state occupies

Such a word is written for the state that has the number of the word. All tests for states in a
diagram are for declared ones, so a number that is not declared takes the no side of each: the word
then runs the default arm. Numbers of states and numbers of words are not kept apart, though, and a
word whose number is declared repeats the arm of that state.
-/

namespace FsmFabric

namespace Diagram

def tested : Diagram → List Nat
  | leaf .. => []
  | branch (.state id) yes no => id :: (yes.tested ++ no.tested)
  | branch (.condition _) yes no => yes.tested ++ no.tested

theorem mem_tested_branch {test : Test} {yes no : Diagram} {id : Nat} :
    id ∈ (branch test yes no).tested ↔
      test = .state id ∨ id ∈ yes.tested ∨ id ∈ no.tested := by
  cases test with
  | state other => simp [tested, eq_comm]
  | condition expr => simp [tested]

theorem tested_simplify (d : Diagram) : d.simplify.tested = d.tested := by
  induction d with
  | leaf => rfl
  | branch test yes no ihy ihn =>
    cases test with
    | state id => simp only [simplify, Test.simplify, tested, ihy, ihn]
    | condition expr => simp only [simplify, Test.simplify, tested, ihy, ihn]

theorem tested_mapLeaves (d : Diagram) (change : Mask × Option Nat → Mask × Option Nat) :
    (d.mapLeaves change).tested = d.tested := by
  induction d with
  | leaf => rfl
  | branch test yes no ihy ihn =>
    cases test with
    | state id => simp only [mapLeaves, tested, ihy, ihn]
    | condition expr => simp only [mapLeaves, tested, ihy, ihn]

theorem prune_congr {d : Diagram} {answer answer' : Nat → Bool}
    (same : ∀ id ∈ d.tested, answer id = answer' id) : d.prune answer = d.prune answer' := by
  induction d with
  | leaf => rfl
  | branch test yes no ihy ihn =>
    have left := ihy fun id member => same id (mem_tested_branch.2 (.inr (.inl member)))
    have right := ihn fun id member => same id (mem_tested_branch.2 (.inr (.inr member)))
    cases test with
    | state id => rw [prune, prune, same id List.mem_cons_self, left, right]
    | condition expr => rw [prune, prune, left, right]

/-- Only the answers to the tests for states make the lists of two states differ. -/
theorem transitionsUnder_prune (d : Diagram) (state : Nat) (guard : Option Expr) :
    (d.prune (· == state)).transitionsUnder state guard = d.transitionsUnder state guard := by
  induction d generalizing guard with
  | leaf => rfl
  | branch test yes no ihy ihn =>
    cases test with
    | state id =>
      by_cases here : id = state
      · simp only [prune, transitionsUnder, here, beq_self_eq_true, if_true, ihy]
      · simp only [prune, transitionsUnder, beq_eq_false_iff_ne.2 here, if_neg here,
          Bool.false_eq_true, if_false, ihn]
    | condition expr => simp only [prune, transitionsUnder, ihy, ihn]

/-- The ordered transitions of the default arm for a state: every test for a state fails. -/
def defaultTransitions (d : Diagram) (state : Nat) : List Transition :=
  (d.prune fun _ => false).transitions state

theorem transitions_of_not_tested {d : Diagram} {state : Nat} (other : state ∉ d.tested) :
    d.transitions state = d.defaultTransitions state := by
  have pruned : d.prune (· == state) = d.prune fun _ => false := by
    apply prune_congr
    intro id member
    rw [beq_eq_false_iff_ne]
    rintro rfl
    exact other member
  rw [defaultTransitions, ← pruned]
  exact (d.transitionsUnder_prune state none).symm

end Diagram

/-! ## Tests for states are for declared ones -/

theorem Frame.mem_tested_close {f : Frame} {visible : Subtree} {id : Nat} :
    id ∈ (f.close visible).diagram.tested ↔ id ∈ visible.diagram.tested ∨
      f.test = .state id ∨ id ∈ f.hidden.diagram.tested := by
  unfold close
  split
  · rw [Subtree.diagram, Diagram.mem_tested_branch, or_left_comm]
  · rw [Subtree.diagram, Diagram.mem_tested_branch, or_comm (a := id ∈ f.hidden.diagram.tested),
      or_left_comm]

theorem mem_tested_plug {frames : List Frame} {t : Subtree} {id : Nat} :
    id ∈ (plug frames t).diagram.tested ↔ id ∈ t.diagram.tested ∨
      ∃ f ∈ frames, f.test = .state id ∨ id ∈ f.hidden.diagram.tested := by
  induction frames generalizing t with
  | nil => simp [plug]
  | cons f rest ih =>
    rw [plug, List.foldl_cons, ← plug, ih, Frame.mem_tested_close, List.exists_mem_cons_iff,
      or_assoc]

namespace Draft

variable {p : Expr → Prop} {d d' : Draft} {focus : Subtree} {frames : List Frame} {id : Nat}

theorem Shows.mem_tested (shown : d.Shows focus frames) :
    id ∈ d.diagram.tested ↔ id ∈ focus.diagram.tested ∨
      ∃ f ∈ frames, f.test = .state id ∨ id ∈ f.hidden.diagram.tested := by
  rw [shown.diagram, mem_tested_plug]

/-- Opening a branch adds no test but its own: the other side is a copy. -/
theorem Shows.tested_of_split (shown : d.Shows focus frames) {test : Test}
    (done : d.split test = .ok d') (tested : id ∈ d'.diagram.tested) :
    test = .state id ∨ id ∈ d.diagram.tested := by
  obtain ⟨d₁, _, copy, done₁, copied, shown'⟩ := shown.exists_split test
  obtain rfl : d' = d₁ := Except.ok.inj (done.symm.trans done₁)
  rw [shown'.mem_tested, List.exists_mem_cons_iff] at tested
  rw [shown.mem_tested]
  rcases tested with inside | (new | old) | outer
  · exact .inr (.inl inside)
  · exact .inl new
  · rw [copied, Diagram.tested_simplify] at old
    exact .inr (.inl old)
  · exact .inr (.inr outer)

theorem Shows.tested_of_changeLeaves (shown : d.Shows focus frames)
    {change : Mask × Option Nat → Mask × Option Nat} (done : d.changeLeaves change = .ok d')
    (tested : id ∈ d'.diagram.tested) : id ∈ d.diagram.tested := by
  obtain ⟨d₁, done₁, shown'⟩ := shown.exists_changeLeaves change
  obtain rfl : d' = d₁ := Except.ok.inj (done.symm.trans done₁)
  rw [shown'.mem_tested, Subtree.diagram_mapLeaves, Diagram.tested_mapLeaves] at tested
  exact shown.mem_tested.2 tested

theorem Shows.tested_of_visit (shown : d.Shows focus frames) {side : Bool}
    (done : d.visit side = .ok d') (tested : id ∈ d'.diagram.tested) : id ∈ d.diagram.tested := by
  cases frames with
  | nil => cases (visit_of_scopes_nil shown.scopes side).symm.trans done
  | cons f rest =>
    obtain ⟨d₁, done₁, same⟩ := shown.diagram_visit side
    obtain rfl : d' = d₁ := Except.ok.inj (done.symm.trans done₁)
    exact same ▸ tested

theorem Shows.tested_of_join (shown : d.Shows focus frames) (done : d.join = .ok d')
    (tested : id ∈ d'.diagram.tested) : id ∈ d.diagram.tested := by
  cases frames with
  | nil => cases (join_of_scopes_nil shown.scopes).symm.trans done
  | cons f rest =>
    obtain ⟨d₁, done₁, shown'⟩ := shown.exists_join
    obtain rfl : d' = d₁ := Except.ok.inj (done.symm.trans done₁)
    rw [shown.mem_tested, List.exists_mem_cons_iff]
    split at shown'
    · exact (shown'.mem_tested.1 tested).imp_right .inr
    · have closed := shown'.mem_tested.1 tested
      rwa [Frame.mem_tested_close, or_assoc] at closed

end Draft

namespace Builder

variable {p : Expr → Prop} {b : Builder}

/-- A diagram tests only for declared states. -/
theorem Reachable.mem_states_of_tested (reached : Reachable p b) {id : Nat}
    (tested : id ∈ b.diagram.tested) : id ∈ b.states := by
  have shown {b : Builder} (reached : Reachable p b) :
      ∃ focus frames, b.draft.Shows focus frames := by
    obtain ⟨focus, frames, asks⟩ := (reached.mono fun _ _ => trivial).exists_asks fun _ _ => trivial
    exact ⟨focus, frames, asks.shown⟩
  induction reached with
  | fresh => cases tested
  | split before _ done ih =>
    obtain ⟨focus, frames, shown⟩ := shown before
    obtain ⟨d, drafted, rfl⟩ := split_eq_ok.1 done
    rcases shown.tested_of_split drafted tested with new | old
    · cases new
    · exact ih old
  | visit before done ih =>
    obtain ⟨focus, frames, shown⟩ := shown before
    obtain ⟨d, drafted, rfl⟩ := visit_eq_ok.1 done
    exact ih (shown.tested_of_visit drafted tested)
  | join before done ih =>
    obtain ⟨focus, frames, shown⟩ := shown before
    obtain ⟨d, drafted, rfl⟩ := join_eq_ok.1 done
    exact ih (shown.tested_of_join drafted tested)
  | assign before done ih =>
    obtain ⟨focus, frames, shown⟩ := shown before
    obtain ⟨states, drafted⟩ := kept_of_assign done
    rw [states]
    rcases drafted with ⟨bit, rfl⟩ | same
    · obtain ⟨-, d, drafted, rfl⟩ := assign_output_eq_ok.1 done
      exact ih (shown.tested_of_changeLeaves drafted tested)
    · rw [diagram, same] at tested
      exact ih tested
  | setTarget before done ih =>
    obtain ⟨focus, frames, shown⟩ := shown before
    obtain ⟨d, drafted, rfl⟩ := setTarget_eq_ok.1 done
    exact ih (shown.tested_of_changeLeaves drafted tested)
  | splitState before done ih =>
    obtain ⟨focus, frames, shown⟩ := shown before
    obtain ⟨-, d, drafted, rfl⟩ := splitState_eq_ok.1 done
    simp only [states, List.map_append, List.map_cons, List.map_nil, List.mem_append,
      List.mem_singleton]
    rcases shown.tested_of_split drafted tested with new | old
    · cases new
      exact .inr rfl
    · exact .inl (ih old)
  | openDefault _ ih | leaveSwitch _ ih => exact ih tested

/-- A state that is not declared behaves like the default arm. -/
theorem Reachable.transitions_of_not_declared (reached : Reachable p b) {state : Nat}
    (other : state ∉ b.states) : b.transitions state = b.diagram.defaultTransitions state :=
  Diagram.transitions_of_not_tested fun tested => other (reached.mem_states_of_tested tested)

end Builder

/-! ## What is written into a spare word -/

/-- Behind the words of the declared states every word holds the transitions of the default arm for
its number, but for one case: a word with the number of a declared state repeats the transitions of
that state. -/
theorem Design.spare_word_runs_default_unless_declared {design : Design} {b : Builder}
    (replayed : design.replay = .ok b) (f : Fabric) :
    Compilation.writeMachine f b = (do
        Compilation.prepare f b
        Compilation.writeWords f 0 (b.wordEntries f.guards (← get).image.layout.words)) ∧
      ∀ words slot, (Placement.ofBuilder b f.guards).entries.length ≤ slot → slot < words →
        ∃ e, (b.wordEntries f.guards words)[slot]? = some e ∧ e.id = slot % UInt32.size ∧
          (e.id ∉ b.states → e.transitions = b.diagram.defaultTransitions e.id) ∧
          ∀ arm, (e.id, arm) ∈ b.arms → e.transitions = (b.entryOf e.id arm).transitions ∧
            e.transitions = (b.diagram.prune (· == e.id)).transitions e.id := by
  have reached := Design.reachable_of_replay replayed
  refine ⟨Compilation.writeMachine_eq f b, fun words slot left inside => ?_⟩
  refine ⟨b.spareEntry slot, Builder.getElem?_wordEntries left inside, rfl, fun other => ?_,
    fun arm _ => ⟨rfl, ?_⟩⟩
  · exact reached.transitions_of_not_declared other
  · exact (b.diagram.transitionsUnder_prune _ none).symm

namespace Session

def sparseState : Design where
  module := "sparse"
  events := [.splitState 1 none, .assign (.output 0) true, .join]

/-- Word 1 is free, but it drives output 0 as state 1 does, and the default arm does not. -/
theorem spare_word_repeats_declared_arm :
    ∃ b f e, sparseState.replay = .ok b ∧ Fabric.ofChip oneTable.chip = .ok f ∧
      (Placement.ofBuilder b f.guards).entries.length ≤ 1 ∧ 1 < oneTable.chip.layout.words ∧
      (b.wordEntries f.guards oneTable.chip.layout.words)[1]? = some e ∧
      e.transitions ≠ b.diagram.defaultTransitions 1 := by
  let drives (ts : List Transition) : List Bool := ts.map fun t => t.output.get 0
  obtain ⟨b, -, f, replayed, -, built, placed, spare, default⟩ :=
    exists_compiled oneTable sparseState (fun b _ f =>
      (Placement.ofBuilder b f.guards).entries.length ≤ 1 ∧
      drives (b.spareEntry 1).transitions = [true] ∧
      drives (b.diagram.defaultTransitions 1) = [false]) (by decide +kernel)
  refine ⟨b, f, b.spareEntry 1, replayed, built, placed, by decide,
    Builder.getElem?_wordEntries placed (by decide), fun same => ?_⟩
  rw [same, default] at spare
  cases spare

/-- Word 2 runs the default arm, and word 1 repeats state 1. -/
theorem spare_word_runs_default_unless_declared_sparseState :
    ∃ b f arm, sparseState.replay = .ok b ∧ Fabric.ofChip oneTable.chip = .ok f ∧
      (1, arm) ∈ b.arms ∧ 2 ∉ b.states ∧
      (∃ e, (b.wordEntries f.guards 4)[1]? = some e ∧
        e.transitions = (b.entryOf 1 arm).transitions) ∧
      ∃ e, (b.wordEntries f.guards 4)[2]? = some e ∧
        e.transitions = b.diagram.defaultTransitions 2 := by
  obtain ⟨b, -, f, replayed, -, built, placed, declared, other⟩ :=
    exists_compiled oneTable sparseState (fun b _ f =>
      (Placement.ofBuilder b f.guards).entries.length ≤ 1 ∧ 1 ∈ b.states ∧ 2 ∉ b.states)
      (by decide +kernel)
  obtain ⟨⟨_, arm⟩, member, rfl⟩ := List.mem_map.1 declared
  obtain ⟨-, spare⟩ := Design.spare_word_runs_default_unless_declared replayed f
  obtain ⟨e, found, id, -, repeated⟩ := spare 4 1 placed (by decide)
  obtain ⟨e', found', id', default, -⟩ := spare 4 2 (placed.trans (by decide)) (by decide)
  refine ⟨b, f, arm, replayed, built, member, other, ⟨e, found, ?_⟩, e', found', ?_⟩
  · rw [id] at repeated
    exact (repeated arm member).1
  · rw [id'] at default
    exact default other

end Session

end FsmFabric
