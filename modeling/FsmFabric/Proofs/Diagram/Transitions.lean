import FsmFabric.Fabric.Step
import FsmFabric.Proofs.Design

/-!
# Transitions against the diagram

The transitions of a state are the leaves of the diagram once its tests for states are answered.
The no side of a condition adds no guard of its own, so a part of the list means something only
together with the guard it stands under: where that guard holds, the first match is the leaf that
the walk reaches, and where it fails, nothing in the part matches.
-/

namespace FsmFabric

def Transition.effect (t : Transition) : Mask × Nat := (t.output, t.target)

theorem Transition.firstMatch_append (x : Nat → Bool) (ts us : List Transition) :
    firstMatch x (ts ++ us) = (firstMatch x ts).or (firstMatch x us) :=
  List.find?_append

namespace Diagram

/-- The diagram with every test for a state answered. -/
def prune (answer : Nat → Bool) : Diagram → Diagram
  | leaf output target => leaf output target
  | branch (.state id) yes no => if answer id then yes.prune answer else no.prune answer
  | branch (.condition expr) yes no =>
    branch (.condition expr) (yes.prune answer) (no.prune answer)

def leaves : Diagram → List (Mask × Option Nat)
  | leaf output target => [(output, target)]
  | branch _ yes no => yes.leaves ++ no.leaves

/-- What a leaf does in a state, which is where a machine without a target stays. -/
def settle (state : Nat) (reached : Mask × Option Nat) : Mask × Nat :=
  (reached.1, reached.2.getD state)

theorem map_effect_transitionsUnder (d : Diagram) (state : Nat) (guard : Option Expr) :
    (d.transitionsUnder state guard).map Transition.effect =
      (d.prune (· == state)).leaves.map (settle state) := by
  induction d generalizing guard with
  | leaf output target => rfl
  | branch test yes no ihy ihn =>
    cases test with
    | state id =>
      by_cases here : id = state
      · simp only [transitionsUnder, prune, if_pos here, beq_iff_eq, ihy]
      · simp only [transitionsUnder, prune, if_neg here, beq_iff_eq, ihn]
    | condition expr =>
      simp only [transitionsUnder, prune, leaves, List.map_append, ihy, ihn]

/-! ## The first match -/

/-- Whether a guard lets a part of the list match; one that is missing does. -/
def admits (guard : Option Expr) (x : Nat → Bool) : Bool := guard.elim true (·.holds x)

section Guards

variable {guard : Option Expr} {expr : Expr}

theorem holds_taken (known : ∀ g ∈ guard, g.isCoerced = true) (coerced : expr.isCoerced = true)
    (x : Nat → Bool) : (taken guard expr).holds x = (admits guard x && expr.holds x) := by
  have exact := (Expr.simplify_standsFor coerced).holds x
  cases guard with
  | none => rw [taken, Expr.holds_truth, exact, admits, Option.elim_none, Bool.true_and]
  | some g =>
    have outer := (Expr.simplify_standsFor (known g rfl)).holds x
    rw [taken, Expr.both, Expr.holds_logic, Expr.holds_truth, Expr.holds_truth, outer, exact]
    rfl

theorem isCoerced_taken (known : ∀ g ∈ guard, g.isCoerced = true)
    (coerced : expr.isCoerced = true) : (taken guard expr).isCoerced = true := by
  have inner := (Expr.simplify_standsFor coerced).coerced
  cases guard with
  | none => exact Expr.isCoerced_truth inner
  | some g =>
    have outer := (Expr.simplify_standsFor (known g rfl)).coerced
    simp only [taken, Expr.both, Expr.isCoerced, Expr.isLogic_truth, Expr.isCoerced_truth inner,
      Expr.isCoerced_truth outer, Bool.and_self]

end Guards

/-- Below a guard that holds, the first match does what the leaf of the walk says; below one that
fails, nothing matches. -/
theorem firstMatch_transitionsUnder {d : Diagram} (coerced : d.Meets (·.isCoerced))
    (guard : Option Expr) (known : ∀ g ∈ guard, g.isCoerced = true) (state : Nat)
    (x : Nat → Bool) :
    (Transition.firstMatch x (d.transitionsUnder state guard)).map Transition.effect =
      if admits guard x then some (settle state (d.walk state x)) else none := by
  induction d generalizing guard with
  | leaf output target =>
    have listed : (guard.elim (.literal true) Expr.simplify).holds x = admits guard x := by
      cases guard with
      | none => exact Expr.holds_literal true x
      | some g => exact (Expr.simplify_standsFor (known g rfl)).holds x
    rw [transitionsUnder, Transition.firstMatch, List.find?_singleton, listed]
    split <;> rfl
  | branch test yes no ihy ihn =>
    obtain ⟨tested, coercedY, coercedN⟩ := coerced
    cases test with
    | state id =>
      by_cases here : id = state
      · simp only [transitionsUnder, walk, Test.holds, here, beq_self_eq_true, if_true]
        exact ihy coercedY guard known
      · simp only [transitionsUnder, walk, Test.holds, beq_eq_false_iff_ne.2 here, if_neg here]
        exact ihn coercedN guard known
    | condition expr =>
      have yesSide := ihy coercedY (some (taken guard expr)) fun g same =>
        Option.some.inj same ▸ isCoerced_taken known tested
      have noSide := ihn coercedN guard known
      -- the yes side stands under the conjunction, so it is silent unless the condition holds
      have conjoined : admits (some (taken guard expr)) x = (admits guard x && expr.holds x) :=
        holds_taken known tested x
      rw [conjoined] at yesSide
      rw [transitionsUnder, Transition.firstMatch_append, Option.map_or, yesSide, noSide, walk,
        Test.holds]
      by_cases outer : admits guard x = true
      · by_cases inner : expr.holds x = true
        · simp only [outer, inner, Bool.and_self, if_true, Option.some_or]
        · simp only [outer, inner, Bool.and_false, Bool.false_eq_true, if_true, if_false,
            Option.none_or]
      · simp only [outer, Bool.false_and, Bool.false_eq_true, if_false, Option.none_or]

end Diagram

theorem Draft.Asks.meets_diagram {p : Expr → Prop} {d : Draft} {focus : Subtree}
    {frames : List Frame} (asks : d.Asks p focus frames) : d.diagram.Meets p := by
  have general : ∀ (frames : List Frame) (t : Subtree), t.diagram.Meets p →
      (∀ f ∈ frames, f.test.Meets p ∧ f.hidden.diagram.Meets p) →
      (plug frames t).diagram.Meets p := by
    intro frames
    induction frames with
    | nil => exact fun t meets _ => meets
    | cons f rest ih =>
      intro t meets all
      obtain ⟨here, outer⟩ := List.forall_mem_cons.1 all
      exact ih (f.close t) (Frame.meets_close meets here.1 here.2) outer
  rw [asks.shown.diagram]
  exact general frames focus asks.focus asks.frames

namespace Builder

variable {b : Builder}

/-- The ordered transitions of a state say what the diagram says. They end in one without a
condition, there is one for each leaf that the state can reach, and for all inputs the first one
whose guard holds does what the leaf at the end of the walk says. -/
theorem transitions_agree_with_walk (reached : Reachable (·.isCoerced) b) (state : Nat) :
    (∃ last, (b.transitions state).getLast? = some last ∧ last.guard = .literal true) ∧
      (b.transitions state).map Transition.effect =
        (b.diagram.prune (· == state)).leaves.map (Diagram.settle state) ∧
      ∀ x, ∃ t, Transition.firstMatch x (b.transitions state) = some t ∧
        t.output = (b.walk state x).1 ∧ t.target = (b.walk state x).2.getD state := by
  obtain ⟨focus, frames, asks⟩ := reached.exists_asks
    fun e coerced => (Expr.simplify_standsFor coerced).coerced
  refine ⟨b.diagram.exists_getLast?_transitions state,
    b.diagram.map_effect_transitionsUnder state none, fun x => ?_⟩
  have matched := Diagram.firstMatch_transitionsUnder asks.meets_diagram none
    (fun g missing => nomatch missing) state x
  obtain ⟨t, found, effect⟩ := Option.map_eq_some_iff.1 matched
  obtain ⟨output, target⟩ := Prod.mk.inj effect
  exact ⟨t, found, output, target⟩

/-- One arm with a condition inside the no side of another. -/
def nestedArm : Result Builder :=
  fresh.splitState 3 none >>= (·.split (.input 0)) >>= (·.assign (.output 1) true) >>=
    (·.visit false) >>= (·.split (.input 1)) >>= (·.setTarget (some 7)) >>= (·.join) >>=
    (·.join) >>= (·.join)

theorem transitions_agree_with_walk_nestedArm :
    ∃ b, nestedArm = .ok b ∧ Reachable (·.isCoerced) b ∧ (b.transitions 3).length = 3 ∧
      (∃ last, (b.transitions 3).getLast? = some last ∧ last.guard = .literal true) ∧
      (b.transitions 3).map Transition.effect =
        (b.diagram.prune (· == 3)).leaves.map (Diagram.settle 3) ∧
      ∀ x, ∃ t, Transition.firstMatch x (b.transitions 3) = some t ∧
        t.output = (b.walk 3 x).1 ∧ t.target = (b.walk 3 x).2.getD 3 := by
  obtain ⟨b, built, count⟩ : ∃ b, nestedArm = .ok b ∧ (b.transitions 3).length = 3 :=
    ⟨_, rfl, by decide +kernel⟩
  obtain ⟨b₈, run, last⟩ := bind_eq_ok.1 built
  obtain ⟨b₇, run, outer⟩ := bind_eq_ok.1 run
  obtain ⟨b₆, run, inner⟩ := bind_eq_ok.1 run
  obtain ⟨b₅, run, target⟩ := bind_eq_ok.1 run
  obtain ⟨b₄, run, nested⟩ := bind_eq_ok.1 run
  obtain ⟨b₃, run, visited⟩ := bind_eq_ok.1 run
  obtain ⟨b₂, run, assigned⟩ := bind_eq_ok.1 run
  obtain ⟨b₁, opened, split⟩ := bind_eq_ok.1 run
  have arm : Reachable (·.isCoerced) b₁ := Reachable.fresh.splitState opened
  have yes := ((arm.split rfl split).assign assigned).visit visited
  have reached := ((((yes.split rfl nested).setTarget target).join inner).join outer).join last
  exact ⟨b, built, reached, count, transitions_agree_with_walk reached 3⟩

end Builder

end FsmFabric
