import FsmFabric.Fabric.Basic
import FsmFabric.Image.Basic

/-!
# How the fabric runs

In every step the fabric reads the word it rests in. The static tables look at the inputs that the
multiplexers of the word bring to their pins; the first one that fires decides the outputs and the
next word. If none fires, control goes on to the next word when the word says so, and otherwise
stays with the outputs that stand behind those of the tables.

A step has no result where the image lacks a field or a word that the fabric has to read.
-/

namespace FsmFabric

/-- The outcome of a step: the next word and the outputs. -/
structure Move where
  word : Nat
  output : Mask
deriving DecidableEq, Repr

namespace Fabric

variable (f : Fabric) (image : Image) (x : Nat → Bool)

def pinValue (word pin : Nat) : Option Bool := do
  let mux ← f.wiring.drivers[pin]?
  let input ← (image.selection? word mux).toOption.join
  return x input

/-- The row of a table that its pins select in a word. -/
def selectedRow (word : Nat) (t : Lut) : Option Nat := do
  let values ← (List.range t.pins).mapM fun p => f.pinValue image x word (t.firstPin + p)
  return Mask.valueOf values

/-- A field of a word that must be there. -/
def fieldOf (word : Nat) (role : FieldRole) (n : Nat) : Option Mask :=
  (image.field? word role n).toOption.join

def fires (word n : Nat) : Option Bool := do
  let t ← f.luts[n]?
  let table ← fieldOf image word .cfg n
  return table.get (← f.selectedRow image x word t)

/-- The first of `count` tables from number `n` on that fires in a word. -/
def firstFiring (word : Nat) : Nat → Nat → Option (Option Nat)
  | _, 0 => some none
  | n, count + 1 => do
    if ← f.fires image x word n then return some n
    else firstFiring word (n + 1) count

def moveOf (word n : Nat) : Option Move := do
  let jump ← fieldOf image word .jmp n
  let output ← fieldOf image word .out n
  return ⟨jump.valueAt 0 jump.size, output⟩

/-- A step that passes at most `passes` words before it is decided. -/
def stepWithin : Nat → Nat → Option Move
  | 0, _ => none
  | passes + 1, word => do
    match ← f.firstFiring image x word 0 f.guards with
    | some n => moveOf image word n
    | none =>
      let inc ← fieldOf image word .inc 0
      if inc.get 0 then stepWithin passes (word + 1)
      else return ⟨word, ← fieldOf image word .out f.guards⟩

/-- A step from a word. -/
def step (word : Nat) : Option Move := f.stepWithin image x image.layout.words word

/-- The word that the fabric rests in after some inputs, one step for each. -/
def restsIn (f : Fabric) (image : Image) : Nat → List (Nat → Bool) → Option Nat
  | word, [] => some word
  | word, x :: rest => do restsIn f image (← f.step image x word).word rest

end Fabric

/-- The first transition whose guard holds. -/
def Transition.firstMatch (x : Nat → Bool) (ts : List Transition) : Option Transition :=
  ts.find? fun t => t.guard.holds x

end FsmFabric
