import FsmFabric.Diagram.Draft
import FsmFabric.IdMap

/-!
# Building a diagram

A `Builder` follows the text of a design: it opens a conditional or the arm of a state, assigns
bits and targets, changes sides, and closes again. It holds the draft of the diagram; assignments
reach all leaves that are visible there.

Conditional outputs are not kept in leaves. Each arm collects, for each of them, the condition of
its assignments so far; assignments outside the state switch go to every arm.
-/

namespace FsmFabric

inductive Destination where
  | output (bit : Nat)
  | conditionalOutput (bit : Nat)
  | control (bit : Nat)
deriving DecidableEq, Repr

/-- The assignments to a conditional output: it has the value while the condition holds, and the
opposite one otherwise. -/
structure Drive where
  value : Bool
  condition : Expr
deriving Repr

/-- An arm of the state switch. -/
structure Arm where
  place : Option Position := none
  drives : IdMap Drive := IdMap.empty

namespace Arm

/-- An arm that starts with the assignments made outside of all arms. -/
def inherit (shared : Arm) (place : Option Position) : Arm where
  place := place
  drives := ⟨shared.drives.entries.map fun (bit, d) =>
    (bit, { d with condition := d.condition.simplify })⟩

/-- Adds an assignment under a condition. The first one fixes the value; later ones widen the
condition or take away from it. -/
def merge (arm : Arm) (bit : Nat) (condition : Expr) (value : Bool) : Arm :=
  let drive :=
    match arm.drives.find? bit with
    | none => ⟨value, condition⟩
    | some d =>
      if d.value = value then ⟨value, Expr.either d.condition condition⟩
      else ⟨d.value, Expr.both d.condition (Expr.negate condition)⟩
  { arm with drives := arm.drives.insert bit drive }

def conditionalOutputs (arm : Arm) : List ConditionalOutput :=
  arm.drives.entries.map fun (bit, d) =>
    ⟨bit, if d.value then d.condition.simplify else Expr.negate d.condition.simplify⟩

end Arm

/-- The arm that assignments belong to. -/
inductive Active where
  | outside
  /-- The arm declared at this place in the list of arms. -/
  | declared (index : Nat)
  | default
deriving DecidableEq, Repr

/-- A diagram under construction, with the arms of its state switch. -/
structure Builder where
  draft : Draft := Draft.fresh
  /-- The declared states and their arms in order. -/
  arms : List (Nat × Arm) := []
  defaultArm : Option Arm := none
  /-- The assignments made outside of all arms. -/
  shared : Arm := {}
  active : Active := .outside
  control : BitVec 32 := 0

namespace Builder

def fresh : Builder := {}

def diagram (b : Builder) : Diagram := b.draft.diagram

def states (b : Builder) : List Nat := b.arms.map (·.1)

def transitions (b : Builder) (state : Nat) : List Transition := b.diagram.transitions state

/-- Opens a conditional with its yes side visible; both sides start as what was visible. -/
def split (b : Builder) (condition : Expr) : Result Builder := do
  return { b with draft := ← b.draft.split (.condition condition) }

/-- Makes one side of the innermost branch visible. -/
def visit (b : Builder) (yes : Bool) : Result Builder := do
  return { b with draft := ← b.draft.visit yes }

/-- Closes the innermost branch. If both sides have the same leaves, the visible one replaces it. -/
def join (b : Builder) : Result Builder := do
  return { b with draft := ← b.draft.join }

/-- Assigns a conditional output under a guard in the active arm, or in all of them. -/
def driveConditional (b : Builder) (bit : Nat) (guard : Expr) (value : Bool) : Builder :=
  match b.active with
  | .declared index =>
    { b with arms := b.arms.modify index fun (state, arm) => (state, arm.merge bit guard value) }
  | .default => { b with defaultArm := b.defaultArm.map fun arm => arm.merge bit guard value }
  | .outside =>
    { b with
      arms := b.arms.map fun (state, arm) => (state, arm.merge bit guard.simplify value)
      defaultArm := b.defaultArm.map fun arm => arm.merge bit guard.simplify value
      shared := b.shared.merge bit guard value }

def driveControl (b : Builder) (bit : Nat) (value : Bool) : Builder :=
  { b with
    control :=
      if value then b.control ||| BitVec.twoPow 32 bit else b.control &&& ~~~ BitVec.twoPow 32 bit }

def assign (b : Builder) (destination : Destination) (value : Bool) : Result Builder :=
  match destination with
  | .output bit => do
    let _ ← Checked.add bit 1
    return { b with draft := ← b.draft.changeLeaves fun leaf => (leaf.1.put bit value, leaf.2) }
  | .conditionalOutput bit => do
    return b.driveConditional bit (← b.draft.pathGuard) value
  | .control bit =>
    if bit < 32 then .ok (b.driveControl bit value) else refuse (.internal (.controlBit bit))

def setTarget (b : Builder) (target : Option Nat) : Result Builder := do
  return { b with draft := ← b.draft.changeLeaves fun leaf => (leaf.1, target) }

/-- Opens the arm of a state, which must be new. -/
def splitState (b : Builder) (state : Nat) (place : Option Position) : Result Builder :=
  if b.states.contains state then refuse (.duplicateState state (place.getD Position.unknown))
  else do
    return { b with
      arms := b.arms ++ [(state, b.shared.inherit place)]
      active := .declared b.arms.length
      draft := ← b.draft.split (.state state) }

/-- Opens the arm for all other states. -/
def openDefault (b : Builder) (place : Option Position) : Builder :=
  { b with defaultArm := some (b.shared.inherit place), active := .default }

def leaveSwitch (b : Builder) : Builder :=
  { b with
    defaultArm := some (b.defaultArm.getD (b.shared.inherit none))
    active := .outside }

end Builder

end FsmFabric
