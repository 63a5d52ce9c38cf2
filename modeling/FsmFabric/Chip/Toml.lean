import FsmFabric.Chip.Codec
import FsmFabric.Toml.Decode

/-!
# Chips in TOML
-/

namespace FsmFabric

def MuxBank.ofToml : Toml.Decoder MuxBank := fun node => do
  let fields ← Toml.Decode.fields ["size", "count"] (fun _ n => discard (Toml.Decode.index n)) node
  let selectBits ← Toml.Decode.field fields "size" Toml.Decode.index
  let count ← Toml.Decode.field fields "count" Toml.Decode.index
  return { selectBits, count }

def Lut.ofToml : Toml.Decoder Lut := fun node => do
  let kind := Toml.Decode.name [(Lut.tag, ())]
  let probe (name : String) : Toml.Decoder Unit :=
    if name == "type" then kind else fun n => discard (Toml.Decode.index n)
  let fields ← Toml.Decode.fields ["type", "offset", "size"] probe node
  Toml.Decode.field fields "type" kind
  let firstPin ← Toml.Decode.field fields "offset" Toml.Decode.index
  let pins ← Toml.Decode.field fields "size" Toml.Decode.index
  return { firstPin, pins }

def Field.ofToml : Toml.Decoder Field := fun node => do
  let kind := Toml.Decode.name FieldRole.names
  let probe (name : String) : Toml.Decoder Unit := fun n =>
    if name == "type" then discard (kind n) else discard (Toml.Decode.index n)
  let fields ← Toml.Decode.fields ["type", "offset", "size"] probe node
  let role ← Toml.Decode.field fields "type" kind
  let offset ← Toml.Decode.field fields "offset" Toml.Decode.index
  let width ← Toml.Decode.field fields "size" Toml.Decode.index
  return { role, offset, width }

def WordLayout.ofToml : Toml.Decoder WordLayout := fun node => do
  let items := Toml.Decode.list Field.ofToml
  let probe (name : String) : Toml.Decoder Unit := fun n =>
    if name == "items" then discard (items n) else discard (Toml.Decode.index n)
  let found ← Toml.Decode.fields ["count", "size", "items"] probe node
  let words ← Toml.Decode.field found "count" Toml.Decode.index
  let width ← Toml.Decode.field found "size" Toml.Decode.index
  let fields ← Toml.Decode.field found "items" items
  return { words, width, fields }

namespace Chip

def lutsOfToml : Toml.Decoder (List Lut × List Lut) := fun node => do
  let luts := Toml.Decode.list Lut.ofToml
  let fields ← Toml.Decode.fields ["static-components", "conditional-components"]
    (fun _ n => discard (luts n)) node
  let static ← Toml.Decode.field fields "static-components" luts
  let conditional ← Toml.Decode.fieldOr fields "conditional-components" [] luts
  return (static, conditional)

def ofToml : Toml.Decoder Chip := fun node => do
  let wires := Toml.Decode.list (Toml.Decode.pair Toml.Decode.index Toml.Decode.index)
  let probe (name : String) : Toml.Decoder Unit := fun n =>
    match name with
    | "wiremap" => discard (wires n)
    | "muxes" => discard (MuxBank.ofToml n)
    | "decision-tree" => discard (lutsOfToml n)
    | "stew" => discard (WordLayout.ofToml n)
    | _ => discard (Toml.Decode.string n)
  let fields ← Toml.Decode.fields
    ["title", "version", "wiremap", "muxes", "decision-tree", "stew"] probe node
  let title ← Toml.Decode.fieldOr fields "title" "" Toml.Decode.string
  let version ← Toml.Decode.fieldOr fields "version" "" Toml.Decode.string
  let wires ← Toml.Decode.fieldOr fields "wiremap" [] wires
  let muxes ← Toml.Decode.field fields "muxes" MuxBank.ofToml
  let (staticLuts, conditionalLuts) ← Toml.Decode.field fields "decision-tree" lutsOfToml
  let layout ← Toml.Decode.field fields "stew" WordLayout.ofToml
  return { title, version, wires, muxes, staticLuts, conditionalLuts, layout }

end Chip

end FsmFabric
