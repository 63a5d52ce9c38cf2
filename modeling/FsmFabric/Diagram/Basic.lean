import FsmFabric.Machine.StateEntry

/-!
# Decision diagrams

A `Diagram` is a binary tree of tests. A test asks for the current state or for a condition on the
inputs; a leaf says what to drive and where to go. One diagram describes all states: `walk` follows
it for one state and given inputs, and `transitions` lists its leaves for one state as an ordered
list of guarded steps.
-/

namespace FsmFabric

inductive Test where
  /-- Is the machine in this state? -/
  | state (id : Nat)
  /-- Does this condition hold? -/
  | condition (expr : Expr)
deriving Repr

/-- A tree of tests. -/
inductive Diagram where
  /-- The outputs to drive and the state to go to; without a target the machine stays. -/
  | leaf (output : Mask) (target : Option Nat)
  /-- `yes` is followed where the test holds. -/
  | branch (test : Test) (yes no : Diagram)
deriving Repr

namespace Test

def holds (state : Nat) (x : Nat → Bool) : Test → Bool
  | .state id => id == state
  | condition expr => expr.holds x

def simplify : Test → Test
  | .state id => .state id
  | condition expr => condition expr.simplify

end Test

namespace Diagram

/-- The diagram without outputs that stays in every state. -/
def idle : Diagram := leaf Mask.empty none

def simplify : Diagram → Diagram
  | leaf output target => leaf output target
  | branch test yes no => branch test.simplify yes.simplify no.simplify

/-- Whether two diagrams have the same shape and the same leaves; tests do not count. -/
def sameLeaves : Diagram → Diagram → Bool
  | leaf output target, leaf output' target' => target == target' && output.equals output'
  | branch _ yes no, branch _ yes' no' => yes.sameLeaves yes' && no.sameLeaves no'
  | _, _ => false

/-- The leaf that is reached in a state for given inputs: outputs and target. -/
def walk (state : Nat) (x : Nat → Bool) : Diagram → Mask × Option Nat
  | leaf output target => (output, target)
  | branch test yes no => if test.holds state x then yes.walk state x else no.walk state x

/-- The guard of the yes side of a branch on a condition, below the guard of the branch. -/
def taken (guard : Option Expr) (expr : Expr) : Expr :=
  match guard with
  | none => expr.simplify.truth
  | some g => Expr.both g.simplify expr.simplify

/-- The leaves for a state, the yes side of each condition first. Each guard only counts where all
earlier ones fail, so the no side needs no guard of its own. -/
def transitionsUnder (state : Nat) (guard : Option Expr) : Diagram → List Transition
  | leaf output target =>
    [⟨output, guard.elim (.literal true) Expr.simplify, target.getD state⟩]
  | branch (.state id) yes no =>
    if id = state then yes.transitionsUnder state guard else no.transitionsUnder state guard
  | branch (.condition expr) yes no =>
    yes.transitionsUnder state (some (taken guard expr)) ++ no.transitionsUnder state guard

def transitions (d : Diagram) (state : Nat) : List Transition := d.transitionsUnder state none

end Diagram

end FsmFabric
