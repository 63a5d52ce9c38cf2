import FsmFabric.Expr.Simplify
import FsmFabric.Expr.Text
import FsmFabric.Position

/-!
# States as lists of transitions

A machine state has an ordered list of transitions: the first one whose guard holds is taken.
Conditional outputs are driven by their own conditions, whichever transition is taken. A state that
does not fit into one word is continued in the next one; then it is partial.
-/

namespace FsmFabric

/-- When the guard holds, drive the outputs and go to the target state. -/
structure Transition where
  output : Mask
  guard : Expr
  target : Nat
deriving Repr

namespace Transition

/-- An unconditional step from a state to itself. -/
def isFallthrough (t : Transition) (state : Nat) : Bool :=
  match t.guard with
  | .literal true => t.target == state
  | _ => false

def text (t : Transition) : String :=
  "XIT(state=" ++ toString t.target ++ ", output=" ++ t.output.text ++ ", expr=" ++ t.guard.text ++ ")"

def simplify (t : Transition) : Transition := { t with guard := t.guard.simplify }

def same (t u : Transition) : Bool :=
  t.output.equals u.output && t.guard.same u.guard && t.target == u.target

end Transition

/-- An output bit that is driven when a condition holds. -/
structure ConditionalOutput where
  output : Nat
  condition : Expr
deriving Repr

namespace ConditionalOutput

def text (c : ConditionalOutput) : String :=
  "COUT(output=" ++ toString c.output ++ ", expr=" ++ c.condition.text ++ ")"

def simplify (c : ConditionalOutput) : ConditionalOutput :=
  { c with condition := c.condition.simplify }

def same (c d : ConditionalOutput) : Bool :=
  c.output == d.output && c.condition.same d.condition

end ConditionalOutput

/-- A state, or the part of one that goes into one word. -/
structure StateEntry where
  id : Nat
  place : Option Position := none
  /-- The next word continues this state. -/
  isPartial : Bool := false
  /-- What is driven while control goes on to the next word. -/
  partialOutput : Mask := Mask.empty
  transitions : List Transition := []
  conditionalOutputs : List ConditionalOutput := []
deriving Repr

namespace StateEntry

/-- The outputs that all transitions drive. -/
def steadyOutput (e : StateEntry) : Mask :=
  match e.transitions with
  | [] => Mask.empty
  | t :: rest => rest.foldl (fun m u => m.intersect u.output) t.output

def endsInFallthrough (e : StateEntry) : Bool :=
  e.transitions.getLast?.any fun t => t.isFallthrough e.id

/-- Whether an entry fits into a word with `room` guards. A fallthrough at the end needs none. -/
def fits (e : StateEntry) (room : Nat) : Bool :=
  e.transitions.length ≤ room || (e.transitions.length == room + 1 && e.endsInFallthrough)

/-- What is left of an entry after its first `room` transitions. -/
def remainder (e : StateEntry) (room : Nat) : StateEntry where
  id := e.id
  place := e.place
  transitions := e.transitions.drop room
  conditionalOutputs := e.conditionalOutputs.map ConditionalOutput.simplify

/-- Cuts an entry into at most `words + 1` entries of `room` transitions each. Every entry but the
last is partial and drives what the rest of the state drives in any case. -/
def chainWithin (room : Nat) : Nat → StateEntry → List StateEntry
  | 0, e => [e]
  | words + 1, e =>
    if e.fits room then [e]
    else
      let lower := e.remainder room
      { e with
        transitions := e.transitions.take room
        isPartial := true
        partialOutput := lower.steadyOutput } :: chainWithin room words lower

/-- The entries that hold a state when a word has `room` guards. -/
def chain (room : Nat) (e : StateEntry) : List StateEntry :=
  chainWithin room e.transitions.length e

def simplify (e : StateEntry) : StateEntry :=
  { e with
    transitions := e.transitions.map Transition.simplify
    conditionalOutputs := e.conditionalOutputs.map ConditionalOutput.simplify }

def same (e f : StateEntry) : Bool :=
  e.id == f.id && e.place == f.place && e.isPartial == f.isPartial &&
    e.partialOutput.equals f.partialOutput &&
    e.transitions.length == f.transitions.length &&
    (e.transitions.zip f.transitions).all (fun (t, u) => t.same u) &&
    e.conditionalOutputs.length == f.conditionalOutputs.length &&
    (e.conditionalOutputs.zip f.conditionalOutputs).all (fun (c, d) => c.same d)

end StateEntry

end FsmFabric
