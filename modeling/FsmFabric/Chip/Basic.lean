import FsmFabric.Chip.Lut
import FsmFabric.Chip.Wiring

/-!
# Chips

A `Chip` describes one variant of the fabric: its multiplexers, its lookup tables and the layout of
its words. The static tables compute the guards of transitions, highest priority first; the others
compute conditional outputs.
-/

namespace FsmFabric

/-- One variant of the fabric. -/
structure Chip where
  title : String
  version : String
  /-- Pins wired to a certain multiplexer. -/
  wires : List (Nat × Nat)
  muxes : MuxBank
  staticLuts : List Lut
  conditionalLuts : List Lut
  layout : WordLayout
deriving DecidableEq, Repr

namespace Chip

/-- All tables, static ones first. -/
def luts (c : Chip) : List Lut := c.staticLuts ++ c.conditionalLuts

def pinCount (c : Chip) : Except Fault Nat :=
  c.luts.foldlM (fun n t => Checked.add n t.pins) 0

def wiring (c : Chip) : Result Wiring := do
  let pins ← c.pinCount
  Wiring.resolve c.muxes pins c.wires

/-- The chip that is used when no other is described: seven multiplexers of four bits, two static
tables of four pins, three conditional ones of two pins, and 48 words of 168 bits. The output that
is driven when no table fires is the last one. -/
def fallback : Chip where
  title := "LUT4+LUT4"
  version := ""
  wires := [(4, 3), (8, 0), (9, 1), (10, 2), (11, 3), (12, 5), (13, 6)]
  muxes := ⟨4, 7⟩
  staticLuts := [⟨0, 4⟩, ⟨4, 4⟩]
  conditionalLuts := [⟨8, 2⟩, ⟨10, 2⟩, ⟨12, 2⟩]
  layout :=
    { words := 48
      width := 168
      fields := [
        ⟨.inc, 0, 1⟩, ⟨.mux, 1, 28⟩, ⟨.jmp, 29, 6⟩, ⟨.jmp, 35, 6⟩,
        ⟨.out, 65, 24⟩, ⟨.out, 89, 24⟩, ⟨.out, 41, 24⟩,
        ⟨.cfg, 121, 16⟩, ⟨.cfg, 137, 16⟩, ⟨.cfg, 153, 4⟩, ⟨.cfg, 157, 4⟩, ⟨.cfg, 161, 4⟩] }

end Chip

end FsmFabric
