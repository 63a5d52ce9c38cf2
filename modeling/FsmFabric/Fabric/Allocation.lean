import FsmFabric.Fabric.Basic

/-!
# Wiring inputs to pins

Every table of a word needs the inputs of its condition at its pins. Inputs are served one by one
in ascending order: as long as a table waits for the input, the multiplexer that serves the waiting
tables best is given to it, with all its pins. A pin is never given away twice.
-/

namespace FsmFabric

/-- The pins at which an input is welcome, and the number of tables that wait for it. -/
structure Demand where
  pins : Mask
  tables : Nat
deriving Repr

/-- Which input each pin observes, and which pins are given away. -/
structure Allocation where
  observed : List (Option Nat)
  used : Mask
deriving Repr

namespace Fabric

/-- The inputs that a table reads for its condition, if it has enough pins for them and all of
them can be selected. -/
def readsOf (f : Fabric) (place : Option Position) (n : Nat) (t : Lut) (condition : Option Expr) :
    Result (List Nat) := do
  let support ← (condition.elim (.ok Mask.empty) Expr.support : Except Fault Mask)
  if t.pins < support.count then
    refuse (.capacity (.pins n support.count t.pins) place)
  else
    match support.ones.find? fun i => f.inputs ≤ i with
    | some i => refuse (.capacity (.selectable i f.inputs) place)
    | none => return support.ones

def reads (f : Fabric) (place : Option Position) (conditions : List (Option Expr)) :
    Result (List (List Nat)) :=
  f.luts.zipIdx.mapM fun (t, n) => f.readsOf place n t (conditions[n]?).join

def putPins (t : Lut) (value : Bool) (m : Mask) : Mask :=
  (List.range t.pins).foldl (fun m p => m.put (t.firstPin + p) value) m

/-- The demand for an input: all pins of all tables that read it. -/
def demand (f : Fabric) (reads : List (List Nat)) (input : Nat) : Demand :=
  (f.luts.zip reads).foldl (fun d (t, inputs) =>
    if inputs.contains input then ⟨putPins t true d.pins, d.tables + 1⟩ else d) ⟨Mask.empty, 0⟩

/-- Gives a pin to an input. The table of the pin no longer waits. -/
def givePin (f : Fabric) (input : Nat) (d : Demand) (a : Allocation) (pin : Nat) :
    Except Fault (Demand × Allocation) := do
  match f.luts[f.tableOf pin]? with
  | none => .error (.indexOutsideTable (f.tableOf pin) f.luts.length)
  | some t =>
    let tables ← if d.pins.get pin then Checked.sub d.tables 1 else .ok d.tables
    return (⟨putPins t false d.pins, tables⟩,
      ⟨a.observed.set pin (some input), a.used.insert pin⟩)

def givePins (f : Fabric) (input : Nat) (d : Demand) (a : Allocation) :
    List Nat → Except Fault (Demand × Allocation)
  | [] => .ok (d, a)
  | pin :: rest => do
    let (d, a) ← f.givePin input d a pin
    f.givePins input d a rest

/-- Gives multiplexers to an input until no table waits for it; `free` bounds the number of pins
that are not given away, so without any there is nothing to give. -/
def serve (f : Fabric) (place : Option Position) (input : Nat) :
    Nat → Demand → Allocation → Result Allocation
  | free, d, a =>
    if d.tables = 0 then .ok a
    else
      match f.wiring.bestFit (d.pins.without a.used) d.tables, free with
      | some pins, free + 1 => do
        let (d, a) ← f.givePins input d a pins
        f.serve place input free d a
      | _, _ => refuse (.noWire d.pins.text place)

/-- The inputs that are read by any table, in ascending order. -/
def inputsRead (reads : List (List Nat)) : List Nat :=
  (Mask.ofOnes 0 reads.flatten).ones

def serveAll (f : Fabric) (place : Option Position) (reads : List (List Nat)) :
    List Nat → Allocation → Result Allocation
  | [], a => .ok a
  | input :: rest, a => do
    let a ← f.serve place input f.wiring.pinCount (f.demand reads input) a
    f.serveAll place reads rest a

def demandBytes : Nat := 32

/-- Wires the inputs of all conditions to pins. For the pins there is room since they were wired. -/
def allocate (f : Fabric) (place : Option Position) (conditions : List (Option Expr)) :
    Result (List (Option Nat)) := do
  Checked.room f.inputs demandBytes
  let reads ← f.reads place conditions
  let a ← f.serveAll place reads (inputsRead reads)
    ⟨List.replicate f.wiring.pinCount none, Mask.empty⟩
  return a.observed

end Fabric

end FsmFabric
