import FsmFabric.Expr.Simplify
import FsmFabric.Expr.Text
import FsmFabric.WordEdit

/-!
# Lookup tables

A lookup table with `n` pins has one bit for each of the `2 ^ n` combinations of values at its
pins. Programming it with a condition writes the value of the condition into each row.
-/

namespace FsmFabric

/-- A lookup table and the run of pins it reads. -/
structure Lut where
  firstPin : Nat
  pins : Nat
deriving DecidableEq, Repr

namespace Lut

def rows (t : Lut) : Except Fault Nat := Checked.twoPow t.pins

/-- The inputs of the design in a row, when pin `p` observes the input at entry `p` of a group. -/
def rowInputs (observed : Group) (row : Nat) : Except (Failure Error) Mask :=
  match (WordEdit.ofBits (Region.writeNat [.mapped observed] row)).outcome ⟨true, Mask.empty⟩ with
  | (.ok _, r) => .ok r.mask
  | (.error failure, _) => .error failure

/-- Writes a condition into a table, row by row. -/
def program (t : Lut) (table : Region) (observed : Group) (condition : Expr) : WordEdit Unit := do
  let pins ← Edit.ofFault observed.extent
  if pins ≠ t.pins then
    Edit.ofFault (.error (.pinCount pins t.pins))
  else
    let rows ← Edit.ofFault t.rows
    Edit.forRange 0 rows fun row => do
      let inputs ← WordEdit.ofResult (rowInputs observed row)
      WordEdit.ofBits (table.write row (condition.holds inputs.get))

def report (t : Lut) (condition : Expr) (contents : String) : String :=
  "    LUT<" ++ toString t.pins ++ "> \x7b " ++ condition.text ++ " \x7d = " ++ contents

end Lut

end FsmFabric
