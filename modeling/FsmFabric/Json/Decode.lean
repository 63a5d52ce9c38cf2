import FsmFabric.Bits.Basic
import FsmFabric.Json.Reader

/-!
# Decoding JSON into records

A record is written as an object or as the array of its fields in order. An object may have
unknown members, which are ignored, but no known one twice; an array must not have more items than
the record has fields. Numbers are plain digits below a bound. Decoding reports the first thing that
does not fit, in the order of the text; what is missing or too much is found last.
-/

namespace FsmFabric

/-- Why a value could not be decoded. -/
inductive DecodeError where
  /-- The value does not have the expected shape. -/
  | mismatch
  /-- The value is a mask whose storage is not tidy. -/
  | mask (error : BitError)
deriving DecidableEq, Repr

/-- A partial function from JSON. -/
abbrev Decoder (α : Type) := Json → Except DecodeError α

namespace Decode

variable {α β : Type}

def natBelow (bound : Nat) : Decoder Nat
  | .nat value => if value < bound then .ok value else .error .mismatch
  | _ => .error .mismatch

def index : Decoder Nat := natBelow UInt64.size

def id : Decoder Nat := natBelow UInt32.size

def bool : Decoder Bool
  | .bool value => .ok value
  | _ => .error .mismatch

def string : Decoder String
  | .string value => .ok value
  | _ => .error .mismatch

def list (item : Decoder α) : Decoder (List α)
  | .array items => items.mapM item
  | _ => .error .mismatch

def pair (first : Decoder α) (second : Decoder β) : Decoder (α × β)
  | .array [a, b] => do return (← first a, ← second b)
  | _ => .error .mismatch

def option (item : Decoder α) : Decoder (Option α)
  | .null => .ok none
  | j => do return some (← item j)

/-- The members of an object with a known name, none of them twice. Each value is tried by `probe`
as soon as it is met. -/
def members (names : List String) (probe : String → Json → Except DecodeError Unit) :
    List (String × Json) → List (String × Json) → Except DecodeError (List (String × Json))
  | seen, [] => .ok seen.reverse
  | seen, (name, value) :: rest =>
    if names.contains name then
      if (seen.lookup name).isSome then .error .mismatch
      else do
        probe name value
        members names probe ((name, value) :: seen) rest
    else members names probe seen rest

/-- The fields of a record by name, each tried as soon as it is met. -/
def probedRecord (names : List String) (probe : String → Json → Except DecodeError Unit) :
    Decoder (List (String × Json))
  | .object pairs => members names probe [] pairs
  | .array items => do
    let fields ← members names probe [] (names.zip items)
    if items.length ≤ names.length then .ok fields else .error .mismatch
  | _ => .error .mismatch

def record (names : List String) : Decoder (List (String × Json)) :=
  probedRecord names fun _ _ => .ok ()

def field (fields : List (String × Json)) (name : String) (item : Decoder α) :
    Except DecodeError α :=
  match fields.lookup name with
  | some value => item value
  | none => .error .mismatch

def fieldOr (fields : List (String × Json)) (name : String) (default : α) (item : Decoder α) :
    Except DecodeError α :=
  match fields.lookup name with
  | some value => item value
  | none => .ok default

/-- One of a list of names, written as a string or as an object with that one member and a value
that `unit` accepts. -/
def name (names : List (String × α)) (unit : Json → Bool) : Decoder α
  | .string tag => (names.lookup tag).elim (.error .mismatch) .ok
  | .object [(tag, value)] =>
    if unit value then (names.lookup tag).elim (.error .mismatch) .ok else .error .mismatch
  | _ => .error .mismatch

/-- The value of a name without content. -/
def isNull : Json → Bool
  | .null => true
  | _ => false

/-- Decodes the text of a record, in which only the named members count. Text behind the record is
refused last. -/
def text (names : List String) (item : Decoder α) (text : String) : Except DecodeError α :=
  match Json.recordAt? names text.toList with
  | none => .error .mismatch
  | some (value, rest) => do
    let a ← item value
    if Json.onlyBlanks rest then .ok a else .error .mismatch

end Decode

end FsmFabric
