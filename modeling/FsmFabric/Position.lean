import FsmFabric.Json.Decode

/-!
# Places in design sources
-/

namespace FsmFabric

/-- A line of a source file; line 0 of the empty name stands for an unknown place. -/
structure Position where
  file : String
  line : Nat
deriving DecidableEq, Repr

namespace Position

def unknown : Position := ⟨"", 0⟩

def text (p : Position) : String := p.file ++ ":" ++ toString p.line

/-- An optional place as it stands in front of a message. -/
def textOf (p : Option Position) : String := p.elim "<unknown>" text

def toJson (p : Position) : Json := .object [("filename", .string p.file), ("line", .nat p.line)]

def ofJson : Decoder Position := fun j => do
  let fields ← Decode.record ["filename", "line"] j
  let file ← Decode.field fields "filename" Decode.string
  let line ← Decode.field fields "line" Decode.id
  return ⟨file, line⟩

end Position

end FsmFabric
