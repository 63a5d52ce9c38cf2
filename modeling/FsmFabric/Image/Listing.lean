import FsmFabric.Image.Basic
import FsmFabric.Table

/-!
# Images as text

There are four listings of an image: bytes with addresses, one line of digits per word, a table of
all fields, and an array in C.
-/

namespace FsmFabric

/-- A listing of an image. -/
inductive Format where
  | hex | tab | list | c
deriving DecidableEq, Repr

namespace Format

def text : Format → String
  | hex => "hex"
  | tab => "tab"
  | list => "list"
  | c => "c"

def extension : Format → String
  | hex => "hex"
  | tab => "tab"
  | list => "lst"
  | c => "c"

def names : List (String × Format) := [hex, tab, list, c].map fun f => (f.text, f)

end Format

namespace Image

/-- A number in hexadecimal, filled with zeros to a width. -/
def hexNumber (n width : Nat) : String :=
  let digits := Nat.toDigits 16 n
  String.ofList (List.replicate (width - digits.length) '0' ++ digits)

/-- The digits in one line of the listing by bytes. -/
def lineDigits : Nat := 48

/-- The digit at place `n` of the listing by bytes, with what stands around it. -/
def hexCell (bits : Mask) (n : Nat) : String :=
  (if n % lineDigits = 0 then hexNumber (n / 2) 4 ++ ": " else "") ++
    String.singleton (Nat.digitChar (bits.nibble (bits.size - 4 * (n + 1)))) ++
    (if n % 2 = 1 then " " else "") ++
    (if n % lineDigits = lineDigits - 1 then "\n" else "")

/-- All digits from the top, 24 bytes to a line, each line with the address of its first byte. -/
def renderHex (image : Image) : Except Error String :=
  let width := image.layout.width
  if width % 8 ≠ 0 then .error (.internal (.unalignedWords width))
  else
    let digits := image.bits.size / 4
    .ok (String.join ((List.range digits).map (hexCell image.bits)) ++
      (if digits % lineDigits ≠ 0 then "\n" else ""))

/-- One line of digits per word. -/
def renderTab (image : Image) : Except Fault String := do
  let lines ← tabulate (fun index => do return (← image.word index).hex ++ "\n") 0 image.layout.words
  return String.join lines

/-- A heading with a letter for the first 26 fields of a role, a number for the others. -/
def lettered (name : String) (n : Nat) : String :=
  if n < 26 then name.push (Char.ofNat ('A'.toNat + n)) else name ++ toString n

def headingBytes : Nat := 24

/-- The headings of field `n` of a role, put behind `before` other ones. The last output field is the
default one. -/
def headings (image : Image) (before : Nat) (role : FieldRole) (n : Nat) :
    Except Fault (List String) :=
  match role with
  | .mux => do
    Checked.room (before + image.muxes.count) headingBytes
    return (List.range image.muxes.count).map fun mux => "Mux" ++ toString mux
  | .inc => .ok ["Inc"]
  | .jmp => .ok [lettered "Jmp" n]
  | .out => .ok (if n + 1 = image.layout.countOf .out then ["Out"] else [lettered "Out" n])
  | .cfg => .ok [lettered "Cfg" n]

/-- Headings with those of a list of fields behind them, when the fields before these are given. -/
def headingsAfter (image : Image) (found : List String) (before : List Field) :
    List Field → Except Fault (List String)
  | [] => .ok found
  | field :: rest => do
    let n := (before.filter fun f => f.role == field.role).length
    let more ← image.headings found.length field.role n
    image.headingsAfter (found ++ more) (before ++ [field]) rest

def cells (image : Image) (word : Bits) (field : Field) : Except Fault (List String) :=
  match field.role with
  | .mux =>
    tabulate (fun mux => do
      let bits := image.muxes.selectBits
      let offset ← Checked.add field.offset (← Checked.mul mux bits)
      return (← word.extract offset bits).hex) 0 image.muxes.count
  | _ => do return [(← word.extract field.offset field.width).hex]

def row (image : Image) (index : Nat) : Except Fault (List String) := do
  let word ← image.word index
  let fields ← image.layout.fields.mapM (image.cells (Bits.ofMask word))
  return [hexNumber index 1] ++ fields.flatten ++ [word.hex]

/-- A table with a row per word and a column per field and multiplexer. -/
def renderList (image : Image) : Except Fault String := do
  let headers ← image.headingsAfter ["ST"] [] image.layout.fields
  let rows ← tabulate image.row 0 image.layout.words
  Table.render ⟨headers ++ ["STEW"], rows⟩

def banner : String := String.ofList (List.replicate 62 '=')

/-- The number of 32-bit groups in a word. -/
def groups (image : Image) : Nat := (image.layout.width + 31) / 32

/-- A word as 32-bit groups, the highest first. -/
def groupLine (image : Image) (index : Nat) : Except Fault String := do
  let word ← image.word index
  let cells := (List.range image.groups).reverse.map fun g =>
    "0x" ++ hexNumber (word.valueAt (32 * g) (min (image.layout.width - 32 * g) 32)) 8 ++ ", "
  return "   " ++ String.join cells ++ "\n"

/-- An array of 32-bit groups, the last word first. -/
def renderC (image : Image) : Except Fault String := do
  let head :=
    "/*\n" ++ banner ++ "\nPRISM Downloadable Configuration\n\nInput:    " ++ image.module ++
    "\nConfig:   " ++ image.config ++ "\n" ++ banner ++ "\n*/\n\n#include <stdint.h>\n\n" ++
    "const uint32_t " ++ image.module ++ "[] =\n\x7b\n"
  let last := image.layout.words - 1
  let lines ← tabulate (fun k => image.groupLine (last - k)) 0 image.layout.words
  let tail :=
    "\n\x7d;\nconst uint32_t " ++ image.module ++ "_count = " ++
    toString (image.groups * image.layout.words) ++ ";\nconst uint32_t " ++ image.module ++
    "_width = " ++ toString image.layout.width ++ ";\n"
  return head ++ String.join lines ++ tail

def render (image : Image) : Format → Result String
  | .hex => image.renderHex.mapError .refused
  | .tab => image.renderTab
  | .list => image.renderList
  | .c => image.renderC

end Image

end FsmFabric
