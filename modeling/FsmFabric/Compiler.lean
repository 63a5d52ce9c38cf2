import FsmFabric.Diagram.Builder
import FsmFabric.Fabric.Assembly
import FsmFabric.Image.Basic

/-!
# Compiling a machine into an image

The declared states take the first words in order of declaration, each as many as its transitions
need. Every word that is left gets the behaviour of an undeclared state whose number is that of the
word.
-/

namespace FsmFabric

namespace Builder

def entryOf (b : Builder) (state : Nat) (arm : Arm) : StateEntry where
  id := state
  place := arm.place
  transitions := b.transitions state
  conditionalOutputs := arm.conditionalOutputs

/-- The entry of a word that no declared state occupies. -/
def spareEntry (b : Builder) (slot : Nat) : StateEntry where
  id := slot % UInt32.size
  transitions := b.transitions (slot % UInt32.size)
  conditionalOutputs := (b.defaultArm.getD b.shared).conditionalOutputs

end Builder

/-- Entries placed in consecutive words, and the first word of each state. -/
structure Placement where
  entries : List StateEntry := []
  slots : IdMap Nat := IdMap.empty

namespace Placement

/-- Places a state behind all others. -/
def add (p : Placement) (room : Nat) (e : StateEntry) : Placement where
  entries := p.entries ++ e.chain room
  slots := p.slots.insert e.id p.entries.length

def ofBuilder (b : Builder) (room : Nat) : Placement :=
  b.arms.foldl (fun p (state, arm) => p.add room (b.entryOf state arm)) {}

end Placement

/-- The state of a compilation. -/
structure Compilation where
  image : Image
  slots : IdMap Nat := IdMap.empty
  log : Log := []
  /-- Whether debug messages are kept. -/
  verbose : Bool := false

abbrev Compile := Edit Compilation Error

namespace Compilation

/-- Runs the assembly of a word on the image. -/
def assembling {α : Type} (act : Assembler α) : Compile α :=
  Edit.zoom (fun c => ⟨⟨false, c.image.bits⟩, c.slots, c.log, c.verbose⟩)
    (fun c a => { c with
      image := { c.image with bits := a.register.mask }, slots := a.slots, log := a.log })
    (fun e => e) act

def writeWord (f : Fabric) (slot : Nat) (e : StateEntry) : Compile Unit := do
  let image := (← get).image
  let word ← Edit.ofFault (image.wordRegion slot)
  assembling (f.assemble image.layout word e)

def writeWords (f : Fabric) : Nat → List StateEntry → Compile Unit
  | _, [] => pure ()
  | slot, e :: rest => do
    writeWord f slot e
    writeWords f (slot + 1) rest

/-- Writes the behaviour of undeclared states into `count` words from word `slot` on. -/
def fillWords (f : Fabric) (b : Builder) (slot : Nat) : Nat → Compile Unit
  | 0 => pure ()
  | count + 1 => do
    writeWord f slot (b.spareEntry slot)
    fillWords f b (slot + 1) count

/-- Sets the control register and gives words to the declared states, if there are enough. -/
def prepare (f : Fabric) (b : Builder) : Compile Unit := do
  modify fun c => { c with image := { c.image with control := b.control.toNat } }
  let placement := Placement.ofBuilder b f.guards
  let words := (← get).image.layout.words
  let needed := placement.entries.length
  if words < needed then Edit.refuse (.capacity (.words needed words) none)
  modify fun c => { c with slots := placement.slots }

/-- Writes a machine into the image. -/
def writeMachine (f : Fabric) (b : Builder) : Compile Unit := do
  prepare f b
  let declared := (Placement.ofBuilder b f.guards).entries
  let words := (← get).image.layout.words
  writeWords f 0 declared
  fillWords f b declared.length (words - declared.length)

end Compilation

/-- A named module on a chip that has a name. -/
structure Session where
  module : String
  config : String
  chip : Chip
  /-- Whether the log keeps debug messages. -/
  verbose : Bool := false

namespace Session

/-- An image with all words zero and the labels of the session. -/
def blankImage (s : Session) : Except Fault Image := do
  return (← Image.blank s.chip.layout s.chip.muxes).withLabels s.module s.config

def summary (s : Session) : String :=
  "compiled " ++ s.module ++ " into " ++ toString s.chip.layout.words ++ " words of " ++
    toString s.chip.layout.width ++ " bits"

/-- Compiles a machine, with the log of the compilation. -/
def run (s : Session) (b : Builder) : Result Image × Log :=
  match (do return (← Fabric.ofChip s.chip, ← s.blankImage) : Result (Fabric × Image)) with
  | .error failure => (.error failure, [])
  | .ok (f, image) =>
    match (Compilation.writeMachine f b).outcome { image, verbose := s.verbose } with
    | (.error failure, c) => (.error failure, c.log)
    | (.ok _, c) => (.ok c.image, ⟨.info, s.summary⟩ :: c.log)

def compile (s : Session) (b : Builder) : Result Image := (s.run b).1

end Session

end FsmFabric
