import FsmFabric.Chip.Mux

/-!
# Images

An `Image` is the array of configuration words for a chip, kept as one long mask. Word 0 lies in
the highest bits, so that the image reads in the order of its words from the top.
-/

namespace FsmFabric

/-- The words of a chip, the machine's control register, and the names that label the image. -/
structure Image where
  bits : Mask
  layout : WordLayout
  muxes : MuxBank
  control : Nat := 0
  module : String := ""
  config : String := ""
deriving DecidableEq, Repr

namespace Image

def blank (layout : WordLayout) (muxes : MuxBank) : Except Fault Image := do
  return { bits := Mask.blank (← layout.imageBits), layout, muxes }

def withLabels (image : Image) (module config : String) : Image := { image with module, config }

def wordRegion (image : Image) (index : Nat) : Except Fault Region := do
  if index < image.layout.words then
    return [.window (← image.layout.wordOffset index) image.layout.width]
  else .error (.wordOutsideImage index)

def word (image : Image) (index : Nat) : Except Fault Mask := do
  if index < image.layout.words then
    (Bits.ofMask image.bits).extract (← image.layout.wordOffset index) image.layout.width
  else .error (.wordOutsideImage index)

/-- A copy of field `n` of a role in a word, if the layout has it. -/
def field? (image : Image) (index : Nat) (role : FieldRole) (n : Nat) :
    Except Fault (Option Mask) := do
  match image.layout.field? role n with
  | none => return none
  | some field => return some (← (Bits.ofMask (← image.word index)).extract field.offset field.width)

/-- The input that a multiplexer selects in a word, if there is such a multiplexer. -/
def selection? (image : Image) (index mux : Nat) : Except Fault (Option Nat) := do
  match image.layout.field? .mux 0 with
  | none => return none
  | some field =>
    if mux < image.muxes.count then
      let word ← image.word index
      let bits := image.muxes.selectBits
      let offset ← Checked.add field.offset (← Checked.mul mux bits)
      return some (← (Bits.ofMask word).valueAt offset bits)
    else return none

def edit {ε α : Type} (act : Edit Register ε α) : Edit Image ε α :=
  Edit.zoom (fun image => ⟨false, image.bits⟩) (fun image r => { image with bits := r.mask })
    (fun e => e) act

end Image

end FsmFabric
