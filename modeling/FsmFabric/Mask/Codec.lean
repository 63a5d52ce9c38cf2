import FsmFabric.Json.Decode
import FsmFabric.Json.Writer

/-!
# Masks in JSON

A mask is written as its size and its words. Reading accepts exactly the tidy ones.
-/

namespace FsmFabric.Mask

def toJson (m : Mask) : Json :=
  .object [("nbits", .nat m.size),
    ("words", .array (m.storage.words.toList.map fun w => .nat w.toNat))]

def fieldNames : List String := ["nbits", "words"]

def ofJson : Decoder Mask := fun j => do
  let fields ← Decode.record fieldNames j
  let size ← Decode.field fields "nbits" Decode.index
  let words ← Decode.field fields "words" (Decode.list Decode.index)
  match ofStorage? ⟨size, (words.map (BitVec.ofNat 64)).toArray⟩ with
  | some m => return m
  | none => .error (.mask (.malformed size words.length))

def read (text : String) : Except DecodeError Mask := Decode.text fieldNames ofJson text

end FsmFabric.Mask
