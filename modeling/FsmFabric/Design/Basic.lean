import FsmFabric.Diagram.Builder

/-!
# Designs

A `Design` is the recorded text of a state machine: a module name and the events that build its
diagram. Replaying it requires that conditionals are closed properly.
-/

namespace FsmFabric

/-- One step through the text of a design. -/
inductive Event where
  /-- A conditional opens. -/
  | split (condition : Expr) (place : Option Position)
  /-- The other side, or the first one again, of the innermost conditional or arm. -/
  | visit (yes : Bool)
  /-- The innermost conditional or arm closes. -/
  | join
  | assign (destination : Destination) (value : Bool)
  /-- The next state; none to stay. -/
  | setTarget (state : Option Nat)
  /-- The arm of a state opens. -/
  | splitState (state : Nat) (place : Option Position)
  /-- The arm of all other states begins. -/
  | openDefault (place : Option Position)
  /-- The state switch begins. -/
  | enterSwitch (name : String)
  /-- The state switch ends. -/
  | leaveSwitch
deriving Repr

/-- What an event does to a diagram under construction. -/
def Builder.apply (b : Builder) : Event → Result Builder
  | .split condition _ => b.split condition.simplify
  | .visit yes => b.visit yes
  | .join => b.join
  | .assign destination value => b.assign destination value
  | .setTarget state => b.setTarget state
  | .splitState state place => b.splitState state place
  | .openDefault place => .ok (b.openDefault place)
  | .enterSwitch _ => .ok b
  | .leaveSwitch => .ok b.leaveSwitch

/-- A module name and the events that build its diagram. -/
structure Design where
  module : String
  events : List Event
deriving Repr

namespace Design

/-- The places of the scopes that are open after an event, which must not close a scope or change
its side while none is open. -/
def track (places : List (Option Position)) : Event → Except ScriptFault (List (Option Position))
  | .split _ place | .splitState _ place => .ok (place :: places)
  | .visit _ => if places.isEmpty then .error .strayElse else .ok places
  | .join =>
    match places with
    | [] => .error .strayJoin
    | _ :: rest => .ok rest
  | _ => .ok places

/-- Replays events on a builder, given the places of its open scopes, innermost first. -/
def replayFrom (b : Builder) (places : List (Option Position)) :
    List Event → Result (Builder × List (Option Position))
  | [] => .ok (b, places)
  | event :: rest =>
    match track places event with
    | .error cause => refuse (.script cause none)
    | .ok places => do replayFrom (← b.apply event) places rest

/-- The diagram that a design builds. -/
def replay (d : Design) : Result Builder := do
  match ← replayFrom Builder.fresh [] d.events with
  | (b, []) => return b
  | (_, place :: rest) =>
    refuse (.script (.unclosed (rest.length + 1) d.module) place)

end Design

end FsmFabric
