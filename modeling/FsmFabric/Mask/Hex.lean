import FsmFabric.Mask.Basic

/-!
# Masks as hexadecimal text

The digits of a mask stand most significant first, as many as its size needs, and at least one.
The full form puts the size in front, as in `8'h5a`.
-/

namespace FsmFabric.Mask

def nibble (m : Mask) (i : Nat) : Nat := m.valueAt i 4

/-- The hexadecimal digits, most significant first; no digits for no bits. That their number is in
range is checked for the bits of a region (`Bits.hex`), but not here: a mask that has no room for it
would fill `2 ^ 61` bytes. -/
def nibbles (m : Mask) : List Char :=
  (List.range ((m.size + 3) / 4)).reverse.map fun k => Nat.digitChar (m.nibble (4 * k))

/-- The hexadecimal digits, `0` for the empty mask. -/
def hex (m : Mask) : String :=
  match m.nibbles with
  | [] => "0"
  | digits => String.ofList digits

def text (m : Mask) : String := toString m.size ++ "'h" ++ m.hex

end FsmFabric.Mask
