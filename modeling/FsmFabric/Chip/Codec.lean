import FsmFabric.Chip.Basic
import FsmFabric.Json.Writer

/-!
# Chips in JSON
-/

namespace FsmFabric

def FieldRole.tag : FieldRole → String
  | inc => "inc"
  | mux => "mux"
  | jmp => "jmp"
  | out => "out"
  | cfg => "cfg"

def FieldRole.names : List (String × FieldRole) :=
  [inc, mux, jmp, out, cfg].map fun role => (role.tag, role)

def FieldRole.ofJson : Decoder FieldRole := Decode.name names Decode.isNull

def Field.toJson (f : Field) : Json :=
  .object [("type", .string f.role.tag), ("offset", .nat f.offset), ("size", .nat f.width)]

def Field.ofJson : Decoder Field := fun j => do
  let fields ← Decode.record ["type", "offset", "size"] j
  let role ← Decode.field fields "type" FieldRole.ofJson
  let offset ← Decode.field fields "offset" Decode.index
  let width ← Decode.field fields "size" Decode.index
  return ⟨role, offset, width⟩

def WordLayout.toJson (l : WordLayout) : Json :=
  .object [("count", .nat l.words), ("size", .nat l.width),
    ("items", .array (l.fields.map Field.toJson))]

def WordLayout.ofJson : Decoder WordLayout := fun j => do
  let fields ← Decode.record ["count", "size", "items"] j
  let words ← Decode.field fields "count" Decode.index
  let width ← Decode.field fields "size" Decode.index
  let items ← Decode.field fields "items" (Decode.list Field.ofJson)
  return ⟨words, width, items⟩

def MuxBank.toJson (b : MuxBank) : Json :=
  .object [("size", .nat b.selectBits), ("count", .nat b.count)]

def MuxBank.ofJson : Decoder MuxBank := fun j => do
  let fields ← Decode.record ["size", "count"] j
  let selectBits ← Decode.field fields "size" Decode.index
  let count ← Decode.field fields "count" Decode.index
  return ⟨selectBits, count⟩

/-- The one kind of table there is. -/
def Lut.tag : String := "lut"

def Lut.toJson (t : Lut) : Json :=
  .object [("type", .string tag), ("offset", .nat t.firstPin), ("size", .nat t.pins)]

def Lut.ofJson : Decoder Lut := fun j => do
  let fields ← Decode.record ["type", "offset", "size"] j
  Decode.field fields "type" (Decode.name [(tag, ())] Decode.isNull)
  let firstPin ← Decode.field fields "offset" Decode.index
  let pins ← Decode.field fields "size" Decode.index
  return ⟨firstPin, pins⟩

namespace Chip

def toJson (c : Chip) : Json :=
  .object [
    ("title", .string c.title),
    ("version", .string c.version),
    ("wiremap", .array (c.wires.map fun (pin, mux) => .array [.nat pin, .nat mux])),
    ("muxes", c.muxes.toJson),
    ("decision-tree", .object [
      ("static-components", .array (c.staticLuts.map Lut.toJson)),
      ("conditional-components", .array (c.conditionalLuts.map Lut.toJson))]),
    ("stew", c.layout.toJson)]

def lutsOfJson : Decoder (List Lut × List Lut) := fun j => do
  let fields ← Decode.record ["static-components", "conditional-components"] j
  let statics ← Decode.field fields "static-components" (Decode.list Lut.ofJson)
  let conditionals ← Decode.fieldOr fields "conditional-components" [] (Decode.list Lut.ofJson)
  return (statics, conditionals)

def ofJson : Decoder Chip := fun j => do
  let fields ← Decode.record ["title", "version", "wiremap", "muxes", "decision-tree", "stew"] j
  let title ← Decode.fieldOr fields "title" "" Decode.string
  let version ← Decode.fieldOr fields "version" "" Decode.string
  let wires ← Decode.fieldOr fields "wiremap" []
    (Decode.list (Decode.pair Decode.index Decode.index))
  let muxes ← Decode.field fields "muxes" MuxBank.ofJson
  let (statics, conditionals) ← Decode.field fields "decision-tree" lutsOfJson
  let layout ← Decode.field fields "stew" WordLayout.ofJson
  return ⟨title, version, wires, muxes, statics, conditionals, layout⟩

end Chip

end FsmFabric
