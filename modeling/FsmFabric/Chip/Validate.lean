import FsmFabric.Chip.Basic

/-!
# Valid chips

A chip that is read from a file must hang together: its tables tile the pins, its fields lie inside
the word, and every pin is wired to a multiplexer that exists.
-/

namespace FsmFabric

/-- What is wrong with a chip. -/
inductive Flaw where
  | emptyBank
  | wideMux (bits : Nat)
  | muxOutside (pin mux count : Nat)
  | noStaticTable
  | manyPins (offset pins : Nat)
  /-- The tables leave out pins or share them. -/
  | notTiled (expected found : Nat)
  | emptyLayout
  | fieldOutside (field : Field) (width : Nat)
  | noMuxField
  | narrowMuxField (width needed : Nat)
  /-- The pins cannot be wired. -/
  | wiring (error : Error)
deriving DecidableEq, Repr

namespace Chip

def maxSelectBits : Nat := 16

def maxPins : Nat := 16

end Chip

def Flaw.message : Flaw → String
  | emptyBank => "mux configuration needs a nonzero size and count"
  | wideMux bits =>
    "mux size " ++ toString bits ++ " is too large; at most " ++ toString Chip.maxSelectBits ++
      " bits are supported"
  | muxOutside pin mux count =>
    s!"wire-map entry ({pin}, {mux}) names a mux outside 0..{count}"
  | noStaticTable => "decision tree needs at least one static component"
  | manyPins offset pins =>
    "component at offset " ++ toString offset ++ " has " ++ toString pins ++ " pins; at most " ++
      toString Chip.maxPins ++ " are supported"
  | notTiled expected found =>
    "component inputs must tile the virtual input space; expected offset " ++ toString expected ++
      ", found " ++ toString found
  | emptyLayout => "STEW needs a nonzero count and size"
  | fieldOutside field width =>
    "STEW " ++ field.role.text ++ " field at " ++ toString field.offset ++ "+" ++
      toString field.width ++ " exceeds the " ++ toString width ++ "-bit word"
  | noMuxField => "STEW has no mux field"
  | narrowMuxField width needed =>
    s!"STEW mux field holds {width} bits, {needed} are needed"
  | wiring error => error.message

namespace Chip

/-- A check that may find a flaw. -/
abbrev Check := Except (Failure Flaw)

def flawed {α : Type} (flaw : Flaw) : Check α := .error (.refused flaw)

def checkMuxes (c : Chip) : Check Unit :=
  if c.muxes.count = 0 ∨ c.muxes.selectBits = 0 then flawed .emptyBank
  else if maxSelectBits < c.muxes.selectBits then flawed (.wideMux c.muxes.selectBits)
  else
    match c.wires.find? fun w => c.muxes.count ≤ w.2 with
    | some (pin, mux) => flawed (.muxOutside pin mux c.muxes.count)
    | none => .ok ()

/-- Checks that runs of pins, given as offset and size, follow each other without a gap. -/
def checkTiling : Nat → List (Nat × Nat) → Check Unit
  | _, [] => .ok ()
  | next, (offset, size) :: rest =>
    if offset = next then do checkTiling (← Checked.add offset size) rest
    else flawed (.notTiled next offset)

def checkLuts (c : Chip) : Check Unit :=
  if c.staticLuts.isEmpty then flawed .noStaticTable
  else
    match c.luts.find? fun t => maxPins < t.pins with
    | some t => flawed (.manyPins t.firstPin t.pins)
    | none => checkTiling 0 (Ordered.sort (c.luts.map fun t => (t.firstPin, t.pins)))

def checkFields (width : Nat) : List Field → Check Unit
  | [] => .ok ()
  | f :: rest => do
    if width < (← Checked.add f.offset f.width) then flawed (.fieldOutside f width)
    else checkFields width rest

def checkLayout (c : Chip) : Check Unit :=
  if c.layout.words = 0 ∨ c.layout.width = 0 then flawed .emptyLayout
  else do
    checkFields c.layout.width c.layout.fields
    match c.layout.field? .mux 0 with
    | none => flawed .noMuxField
    | some field =>
      let needed ← Checked.mul c.muxes.selectBits c.muxes.count
      if field.width < needed then flawed (.narrowMuxField field.width needed)

/-- Checks a chip. -/
def validate (c : Chip) : Check Unit := do
  c.checkMuxes
  c.checkLuts
  c.checkLayout
  match c.wiring with
  | .ok _ => return
  | .error (.refused e) => flawed (.wiring e)
  | .error (.fault f) => .error (.fault f)

end Chip

end FsmFabric
