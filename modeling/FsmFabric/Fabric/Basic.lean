import FsmFabric.Chip.Basic
import FsmFabric.Machine.StateEntry

/-!
# The fabric of a chip

A `Fabric` is a chip whose wiring is known: which multiplexer drives which pin, and which pins
belong to which table. It is what one word configures.
-/

namespace FsmFabric

/-- The tables of a chip and the wiring of their pins. -/
structure Fabric where
  wiring : Wiring
  /-- The tables, static ones first. -/
  luts : List Lut
  /-- The number of static tables. -/
  guards : Nat
  /-- The number of inputs that a multiplexer can select. -/
  inputs : Nat
deriving DecidableEq, Repr

namespace Fabric

/-- The fabric of a chip. Every table must read pins that exist. -/
def ofChip (chip : Chip) : Result Fabric := do
  let wiring ← chip.wiring
  chip.luts.forM fun t => do
    if wiring.pinCount < (← Checked.add t.firstPin t.pins) then
      refuse (.mismatch (.pinsOutside t.firstPin t.pins wiring.pinCount))
  let inputs ← chip.muxes.inputs
  return { wiring, luts := chip.luts, guards := chip.staticLuts.length, inputs }

def conditionals (f : Fabric) : Nat := f.luts.length - f.guards

/-- The table that a pin belongs to, by number; the last one if several claim it. -/
def tableOf (f : Fabric) (pin : Nat) : Nat :=
  f.luts.zipIdx.foldl (fun found (t, n) =>
    if t.firstPin ≤ pin ∧ pin < t.firstPin + t.pins then n else found) 0

end Fabric

end FsmFabric
