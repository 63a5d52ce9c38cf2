import FsmFabric.Design.Basic
import FsmFabric.Expr.Codec

/-!
# Designs in JSON

An event is an object with the member `op` and its fields, or the array of both. Fields that stand
last and have a default may be left out.
-/

namespace FsmFabric

namespace Destination

def toJson : Destination → Json
  | output bit => .object [("output", .nat bit)]
  | conditionalOutput bit => .object [("conditional_output", .nat bit)]
  | control bit => .object [("control", .nat bit)]

def ofJson : Decoder Destination
  | .object [("output", bit)] => do return output (← Decode.index bit)
  | .object [("conditional_output", bit)] => do return conditionalOutput (← Decode.id bit)
  | .object [("control", bit)] => do return control (← Decode.id bit)
  | _ => .error .mismatch

end Destination

namespace Event

def optional {α : Type} (f : α → Json) (a : Option α) : Json := a.elim .null f

def toJson : Event → Json
  | split condition place =>
    .object [("op", .string "split"), ("cond", condition.toJson),
      ("pos", optional Position.toJson place)]
  | visit yes => .object [("op", .string "switch_split"), ("visit_true", .bool yes)]
  | join => .object [("op", .string "join")]
  | assign destination value =>
    .object [("op", .string "assign"), ("dest", destination.toJson), ("value", .bool value)]
  | setTarget state => .object [("op", .string "set_target_state"), ("state", optional .nat state)]
  | splitState state place =>
    .object [("op", .string "split_state_case"), ("state", .nat state),
      ("pos", optional Position.toJson place)]
  | openDefault place =>
    .object [("op", .string "default_state_case"), ("pos", optional Position.toJson place)]
  | enterSwitch name =>
    .object [("op", .string "enter_state_switch"), ("var", .string name)]
  | leaveSwitch => .object [("op", .string "exit_state_switch")]

/-- The value of a literal inside an event. -/
def isUnit : Json → Bool
  | .null | .object [] => true
  | _ => false

def placeOf (fields : List (String × Json)) : Except DecodeError (Option Position) :=
  Decode.fieldOr fields "pos" none (Decode.option Position.ofJson)

/-- Tries a field of a conditional as soon as it is met. -/
def probeSplit (name : String) (value : Json) : Except DecodeError Unit :=
  match name with
  | "cond" => discard (Expr.ofJson isUnit value)
  | _ => discard (Decode.option Position.ofJson value)

/-- Decodes the fields of an event with a given name. -/
def ofFields (op : String) : Decoder Event := fun j => do
  match op with
  | "split" =>
    let fields ← Decode.probedRecord ["cond", "pos"] probeSplit j
    let condition ← Decode.field fields "cond" (Expr.ofJson isUnit)
    return split condition (← placeOf fields)
  | "switch_split" =>
    let fields ← Decode.record ["visit_true"] j
    return visit (← Decode.fieldOr fields "visit_true" false Decode.bool)
  | "join" =>
    let _ ← Decode.record [] j
    return join
  | "assign" =>
    let fields ← Decode.record ["dest", "value"] j
    let destination ← Decode.field fields "dest" Destination.ofJson
    return assign destination (← Decode.field fields "value" Decode.bool)
  | "set_target_state" =>
    let fields ← Decode.record ["state"] j
    return setTarget (← Decode.fieldOr fields "state" none (Decode.option Decode.id))
  | "split_state_case" =>
    let fields ← Decode.record ["state", "pos"] j
    let state ← Decode.field fields "state" Decode.id
    return splitState state (← placeOf fields)
  | "default_state_case" =>
    let fields ← Decode.record ["pos"] j
    return openDefault (← placeOf fields)
  | "enter_state_switch" =>
    let fields ← Decode.record ["var"] j
    return enterSwitch (← Decode.field fields "var" Decode.string)
  | "exit_state_switch" =>
    let _ ← Decode.record [] j
    return leaveSwitch
  | _ => .error .mismatch

def ofJson : Decoder Event
  | .array (.string op :: fields) => ofFields op (.array fields)
  | .object members =>
    match members.filter fun m => m.1 == "op" with
    | [(_, .string op)] => ofFields op (.object (members.filter fun m => m.1 != "op"))
    | _ => .error .mismatch
  | _ => .error .mismatch

end Event

namespace Design

def toJson (d : Design) : Json :=
  .object [("module", .string d.module), ("ops", .array (d.events.map Event.toJson))]

def fieldNames : List String := ["module", "ops"]

def ofJson : Decoder Design := fun j => do
  let fields ← Decode.record fieldNames j
  let module ← Decode.field fields "module" Decode.string
  let events ← Decode.field fields "ops" (Decode.list Event.ofJson)
  return ⟨module, events⟩

def read (text : String) : Except Error Design :=
  (Decode.text fieldNames ofJson text).mapError fun _ => .script .unreadable none

end Design

end FsmFabric
