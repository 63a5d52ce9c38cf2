import FsmFabric.Fabric.Allocation
import FsmFabric.Log

/-!
# Assembling words

`Fabric.assemble` writes one entry into a word: outputs and jump of each transition, the flag that
lets control go on to the next word, the table of every condition, and the multiplexers that bring
the inputs to the tables. Each word is written through the fields of the layout.
-/

namespace FsmFabric

/-- The bits that are written, the words of the states, and the log. -/
structure Assembly where
  register : Register
  /-- The first word of each state. -/
  slots : IdMap Nat := IdMap.empty
  log : Log := []
  /-- Whether debug messages are kept. -/
  verbose : Bool := false

abbrev Assembler := Edit Assembly Error

namespace Assembler

variable {α : Type}

def write (act : WordEdit α) : Assembler α :=
  Edit.zoom Assembly.register (fun a r => { a with register := r }) (fun e => e) act

def ofResult (r : Result α) : Assembler α := Edit.ofExcept r

def refuse (error : Error) : Assembler α := Edit.refuse error

/-- Adds a debug message to the log, if such messages are kept. -/
def debug (message : String) : Assembler Unit :=
  modify fun a => { a with log := if a.verbose then ⟨.debug, message⟩ :: a.log else a.log }

end Assembler

/-- Whether a number has no digits beyond a field. The width of a field counts modulo `2 ^ 32`,
and every number fits into 64 bits. -/
def Field.holds (f : Field) (value : Nat) : Bool :=
  64 ≤ f.width % UInt32.size || value >>> (f.width % UInt32.size) == 0

namespace Fabric

/-- The word to jump to for a state. A state without a word may only jump to itself; then its
number is its word. -/
def slotOf (e : StateEntry) (target : Nat) : Assembler Nat := do
  match (← get).slots.find? target with
  | some slot => return slot
  | none =>
    if target = e.id then
      modify fun a => { a with slots := a.slots.insert e.id e.id }
      return e.id
    else Assembler.refuse (.undefinedTarget target e.place)

def assembleJump (layout : WordLayout) (word : Region) (e : StateEntry) (n : Nat)
    (t : Transition) : Assembler Unit := do
  let jump ← Assembler.ofResult (layout.require .jmp n)
  let slot ← slotOf e t.target
  if jump.holds slot then
    Assembler.write (WordEdit.ofBits ((jump.region word).writeNat slot))
  else Assembler.refuse (.capacity (.jumpField slot jump.width) e.place)

/-- Writes transition `n`. One after the last guard is a fallthrough and has no jump. -/
def assembleTransition (f : Fabric) (layout : WordLayout) (word : Region) (e : StateEntry)
    (n : Nat) (t : Transition) : Assembler Unit := do
  Assembler.debug ("    " ++ t.text)
  let out ← Assembler.ofResult (layout.require .out n)
  if n ≠ f.guards then assembleJump layout word e n t
  Assembler.write (out.write word t.output)

def assembleTransitions (f : Fabric) (layout : WordLayout) (word : Region) (e : StateEntry) :
    Nat → List Transition → Assembler Unit
  | _, [] => pure ()
  | n, t :: rest => do
    f.assembleTransition layout word e n t
    f.assembleTransitions layout word e (n + 1) rest

/-- Lets control go on to the next word. -/
def assemblePartial (layout : WordLayout) (word : Region) (e : StateEntry) : Assembler Unit := do
  let inc ← Assembler.ofResult (layout.require .inc 0)
  let out ← Assembler.ofResult (layout.require .out e.transitions.length)
  Assembler.write (out.write word e.partialOutput)
  Assembler.write (WordEdit.ofBits (word.write inc.offset true))

/-- Reports the conditional outputs, each of which must have a table. -/
def checkConditionals (f : Fabric) (place : Option Position) :
    List ConditionalOutput → Assembler Unit
  | [] => pure ()
  | c :: rest => do
    Assembler.debug ("    " ++ c.text)
    if f.luts.length ≤ f.guards + c.output then
      Assembler.refuse (.capacity (.conditionalOutput c.output) place)
    f.checkConditionals place rest

/-- The condition of each table: guards, then conditional outputs, the last one given for each. -/
def conditions (f : Fabric) (e : StateEntry) : List (Option Expr) :=
  (List.range f.luts.length).map fun n =>
    if n < f.guards then (e.transitions[n]?).map Transition.guard
    else (e.conditionalOutputs.reverse.find? fun c => f.guards + c.output == n).map
      ConditionalOutput.condition

/-- The input that each pin observes; a pin without one gets a number that no condition reads. -/
def observations (f : Fabric) (observed : List (Option Nat)) : List Nat :=
  observed.zipIdx.map fun (input, pin) => input.getD (f.inputs + pin)

/-- Programs table `n`. One without a condition fires always if it is a guard, and never
otherwise. What the table holds is only looked up for a message that is kept. -/
def assembleTable (f : Fabric) (layout : WordLayout) (word : Region) (observed : Group)
    (n : Nat) (t : Lut) (condition : Option Expr) : Assembler Unit := do
  let pins ← Edit.ofFault (observed.cut t.firstPin t.pins)
  let field ← Assembler.ofResult (layout.require .cfg n)
  let condition := condition.getD (.literal (n < f.guards))
  Assembler.write (t.program (field.region word) pins condition)
  if (← get).verbose then
    let contents ← Edit.ofFault (Bits.hex ⟨(← get).register, field.region word⟩ true)
    Assembler.debug (t.report condition contents)

def assembleTables (f : Fabric) (layout : WordLayout) (word : Region) (observed : Group)
    (conditions : List (Option Expr)) : Nat → List Lut → Assembler Unit
  | _, [] => pure ()
  | n, t :: rest => do
    f.assembleTable layout word observed n t (conditions[n]?).join
    f.assembleTables layout word observed conditions (n + 1) rest

def wireReport (f : Fabric) (pin : Nat) (input : Option Nat) : String :=
  "    WIRE (virtual -> real) = \x7b " ++ twoPlaces pin ++ " -> " ++ input.elim " -" twoPlaces ++
    " \x7d[ Component " ++ twoPlaces (f.tableOf pin) ++ " ]"

def entryReport (e : StateEntry) : String :=
  "STATE " ++ toString e.id ++ (if e.isPartial then " (partial)" else "") ++ ": (" ++
    toString e.transitions.length ++ " transitions, " ++ toString e.conditionalOutputs.length ++
    " conditional outputs)"

/-- Programs the tables for the conditions of an entry, and the multiplexers behind their pins. -/
def assembleLogic (f : Fabric) (layout : WordLayout) (word : Region) (e : StateEntry) :
    Assembler Unit := do
  f.checkConditionals e.place e.conditionalOutputs
  let conditions := f.conditions e
  let observed ← Assembler.ofResult (f.allocate e.place conditions)
  Assembler.debug "  Components:"
  f.assembleTables layout word (.table (f.observations observed)) conditions 0 f.luts
  Assembler.debug "  Wire mapping:"
  observed.zipIdx.forM fun (input, pin) => Assembler.debug (f.wireReport pin input)
  Assembler.write (f.wiring.program layout word observed)

/-- Writes what stands behind the transitions of an entry. -/
def assembleRest (f : Fabric) (layout : WordLayout) (word : Region) (e : StateEntry) :
    Assembler Unit := do
  if e.isPartial then assemblePartial layout word e
  f.assembleLogic layout word e

/-- Writes an entry into a word. -/
def assemble (f : Fabric) (layout : WordLayout) (word : Region) (e : StateEntry) :
    Assembler Unit := do
  Assembler.debug (entryReport e)
  if e.fits f.guards then
    Assembler.debug "  Breakdown:"
    f.assembleTransitions layout word e 0 e.transitions
    f.assembleRest layout word e
  else Assembler.refuse (.capacity (.transitions e.id e.transitions.length f.guards) e.place)

end Fabric

end FsmFabric
