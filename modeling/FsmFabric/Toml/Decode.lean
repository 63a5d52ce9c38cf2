import FsmFabric.Toml.Node

/-!
# Decoding TOML into records

A record is a table, or the array of its fields in order. Unknown keys and items past the last
field are ignored. A value that does not fit is reported where it starts; a missing field is
reported where its table starts.
-/

namespace FsmFabric.Toml

/-- A partial function from nodes. It fails at a place, or at the node as a whole. -/
abbrev Decoder (α : Type) := Node → Except (Option Nat) α

namespace Decode

variable {α β : Type}

def misfit : Except (Option Nat) α := .error none

/-- Reports a failure of the node as a whole where the node starts. -/
def located (item : Decoder α) : Decoder α := fun node =>
  (item node).mapError fun place => place.or node.start?

def index : Decoder Nat
  | .integer _ value => if 0 ≤ value then .ok value.toNat else misfit
  | _ => misfit

def string : Decoder String
  | .text _ value => .ok value
  | _ => misfit

/-- The items of an array of either kind. -/
def items : Decoder (List Node)
  | .array _ items | .tables items => .ok items
  | _ => misfit

def list (item : Decoder α) : Decoder (List α) := fun node => do
  (← items node).mapM (located item)

/-- Two items; more are ignored. -/
def pair (first : Decoder α) (second : Decoder β) : Decoder (α × β) := fun node => do
  match ← items node with
  | [] => misfit
  | [a] =>
    discard (located first a)
    misfit
  | a :: b :: _ => return (← located first a, ← located second b)

def isEmpty : Node → Bool
  | .array _ [] | .tables [] | .table _ _ [] => true
  | _ => false

/-- One of a list of names, written as a string or as a table with that one key and nothing under
it. -/
def name (names : List (String × α)) : Decoder α
  | .text _ tag => (names.lookup tag).elim misfit .ok
  | .table _ _ [(key, content)] =>
    match names.lookup key.name with
    | none => .error (some key.start)
    | some a => if isEmpty content then .ok a else .error content.start?
  | _ => misfit

/-- The fields of a record by name, each tried in the order of the text. -/
def fields (names : List String) (probe : String → Decoder Unit) :
    Decoder (List (String × Node))
  | .table _ _ entries => do
    let known := entries.filter fun e => names.contains e.1.name
    known.forM fun (key, node) =>
      (located (probe key.name) node).mapError fun place => place.or (some key.start)
    return known.map fun (key, node) => (key.name, node)
  | .array _ items | .tables items => do
    let known := names.zip items
    known.forM fun (name, node) => located (probe name) node
    return known
  | _ => misfit

def field (fields : List (String × Node)) (name : String) (item : Decoder α) :
    Except (Option Nat) α :=
  match fields.lookup name with
  | some node => located item node
  | none => misfit

def fieldOr (fields : List (String × Node)) (name : String) (default : α) (item : Decoder α) :
    Except (Option Nat) α :=
  match fields.lookup name with
  | some node => located item node
  | none => .ok default

end Decode

end FsmFabric.Toml
