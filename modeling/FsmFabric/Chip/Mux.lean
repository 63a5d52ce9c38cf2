import FsmFabric.WordEdit

/-!
# The multiplexer bank

Each multiplexer of a bank selects one of the inputs of the design. The selections of a word stand
next to each other in its multiplexer field, lowest multiplexer first.
-/

namespace FsmFabric

/-- Multiplexers that all have the same number of select bits. -/
structure MuxBank where
  selectBits : Nat
  count : Nat
deriving DecidableEq, Repr

namespace MuxBank

def inputs (bank : MuxBank) : Except Fault Nat := Checked.twoPow bank.selectBits

/-- Writes one selection per multiplexer into a word. -/
def program (bank : MuxBank) (layout : WordLayout) (word : Region) (selects : List Nat) :
    WordEdit Unit := do
  let field ← WordEdit.ofResult (layout.require .mux 0)
  let needed ← Edit.ofFault (Checked.mul bank.selectBits bank.count)
  if field.width < needed then
    WordEdit.refuse (.mismatch (.muxField field.width bank.count bank.selectBits needed))
  else
    (selects.take bank.count).zipIdx.forM fun (select, mux) => do
      let offset ← Edit.ofFault (do Checked.add field.offset (← Checked.mul mux bank.selectBits))
      WordEdit.ofBits (Region.writeNat (.window offset bank.selectBits :: word) select)

end MuxBank

end FsmFabric
