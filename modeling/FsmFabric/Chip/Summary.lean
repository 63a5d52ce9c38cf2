import FsmFabric.Chip.Codec
import FsmFabric.Table

/-!
# Summaries of chips

What there is on a chip, as a page of text with one table for its lookup tables and one for the
fields of its words.
-/

namespace FsmFabric.Chip

def lutRow (c : Chip) (wiring : Wiring) (n : Nat) (t : Lut) : Except Fault (List String) := do
  let last ← Checked.add t.firstPin t.pins
  let muxes ← (List.range t.pins).mapM fun p => wiring.lookup (t.firstPin + p)
  return [toString n, Lut.tag, if n < c.staticLuts.length then "static" else "conditional",
    toString t.firstPin ++ ".." ++ toString last, " ".intercalate (muxes.map toString)]

def fieldRow (f : Field) : List String := [f.role.text, toString f.offset, toString f.width]

def summary (c : Chip) (name : String) : Result String := do
  let wiring ← c.wiring
  let inputs ← c.muxes.inputs
  let rows ← (c.luts.zipIdx.mapM fun (t, n) => c.lutRow wiring n t : Except Fault _)
  let luts ← Table.render ⟨["#", "Kind", "Role", "Pins", "Muxes"], rows⟩
  let fields ← Table.render ⟨["Field", "Offset", "Size"], c.layout.fields.map fieldRow⟩
  return "Configuration: " ++ c.title ++ " (" ++ name ++ ")\n" ++
    "Muxes: " ++ toString c.muxes.count ++ " x " ++ toString c.muxes.selectBits ++ " bits (" ++
    toString inputs ++ " selectable inputs)\n" ++
    "Image: " ++ toString c.layout.words ++ " words x " ++ toString c.layout.width ++ " bits\n\n" ++
    luts ++ "\n" ++ fields

end FsmFabric.Chip
