import FsmFabric.Chip.Codec
import FsmFabric.Image.Listing
import FsmFabric.Mask.Codec

/-!
# Images in JSON
-/

namespace FsmFabric

def Format.ofJson : Decoder Format := Decode.name Format.names Decode.isNull

namespace Image

def toJson (image : Image) : Json :=
  .object [("bits", image.bits.toJson), ("stew", image.layout.toJson),
    ("muxes", image.muxes.toJson), ("control", .nat image.control),
    ("module", .string image.module), ("config", .string image.config)]

def fieldNames : List String := ["bits", "stew", "muxes", "control", "module", "config"]

/-- Tries a field as soon as it is met. -/
def probe (name : String) (value : Json) : Except DecodeError Unit :=
  match name with
  | "bits" => discard (Mask.ofJson value)
  | "stew" => discard (WordLayout.ofJson value)
  | "muxes" => discard (MuxBank.ofJson value)
  | "control" => discard (Decode.id value)
  | _ => discard (Decode.string value)

/-- Decodes an image; its bits are not compared with its layout. -/
def ofJson : Decoder Image := fun j => do
  let fields ← Decode.probedRecord fieldNames probe j
  let bits ← Decode.field fields "bits" Mask.ofJson
  let layout ← Decode.field fields "stew" WordLayout.ofJson
  let muxes ← Decode.field fields "muxes" MuxBank.ofJson
  let control ← Decode.field fields "control" Decode.id
  let module ← Decode.field fields "module" Decode.string
  let config ← Decode.field fields "config" Decode.string
  return { bits, layout, muxes, control, module, config }

def read (text : String) : Except DecodeError Image := Decode.text fieldNames ofJson text

end Image

end FsmFabric
