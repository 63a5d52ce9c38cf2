import FsmFabric.Group
import FsmFabric.Mask.Hex

/-!
# Registers seen through views

A `Register` is a mask together with what happens to a write past its end: a growable register
makes room, a fixed one refuses. Its bits can be addressed through a stack of views, each of which
shows a window or a selection of what lies below it. `Bits` is a register with such a stack. Views
are bounded: past their size they read as false and refuse writes.
-/

namespace FsmFabric

inductive BitError where
  /-- A write to `bit`, or a resize to `bit` bits, of something that has `size` bits. -/
  | outOfBounds (bit size : Nat)
  /-- Storage of `words` words for `size` bits that is not tidy. -/
  | malformed (size words : Nat)
deriving DecidableEq, Repr

def BitError.message : BitError → String
  | outOfBounds bit size => s!"bit {bit} is out of bounds for a fixed bitmask of {size} bits"
  | malformed size words =>
    s!"malformed bitmask: {words} word(s) for {size} bits, or bits set past the end"

/-- A mask that grows when written past its end, or refuses to. -/
structure Register where
  growable : Bool
  mask : Mask
deriving DecidableEq, Repr

/-- A way of addressing the bits of what lies below. -/
inductive View where
  /-- `size` bits starting at `offset`. -/
  | window (offset size : Nat)
  /-- The bits at the entries of a group. -/
  | mapped (group : Group)
deriving DecidableEq, Repr

/-- The number of bits that a view shows, which must be in range. -/
def View.extent : View → Except Fault Nat
  | window _ size => .ok size
  | mapped group => group.extent

/-- Where bit `i` of a view lies in what is below it. -/
def View.below : View → Nat → Except Fault Nat
  | window offset _, i => Checked.add offset i
  | mapped group, i => group.entry i

/-- A stack of views, the outermost first. -/
abbrev Region := List View

namespace Register

def sizeOf (r : Register) : Region → Except Fault Nat
  | [] => .ok r.mask.size
  | view :: _ => view.extent

def read (r : Register) : Region → Nat → Except Fault Bool
  | [], i => .ok (r.mask.get i)
  | view :: rest, i => do if i < (← view.extent) then r.read rest (← view.below i) else return false

/-- The position in the register where a write to bit `i` of a region goes. -/
def locate (r : Register) : Region → Nat → Except (Failure BitError) Nat
  | [], i =>
    if r.growable then do
      let _ ← Checked.add i 1
      return i
    else if i < r.mask.size then .ok i
    else .error (.refused (.outOfBounds i r.mask.size))
  | view :: rest, i => do
    let size ← view.extent
    if i < size then r.locate rest (← view.below i)
    else .error (.refused (.outOfBounds i size))

end Register

/-- A register and the views through which it is addressed. -/
structure Bits where
  register : Register
  region : Region := []

namespace Bits

/-- The bits of a mask that is only read. -/
def ofMask (mask : Mask) : Bits := ⟨⟨false, mask⟩, []⟩

def size (b : Bits) : Except Fault Nat := b.register.sizeOf b.region

/-- Bit `i`, false at or past the size. -/
def get (b : Bits) (i : Nat) : Except Fault Bool := b.register.read b.region i

/-- The first set bit among `left` bits starting at `i`, or the position after them. -/
def seek (b : Bits) : Nat → Nat → Except Fault Nat
  | 0, i => .ok i
  | left + 1, i => do if ← b.get i then return i else b.seek left (i + 1)

/-- The first set bit at or after `start`, found bit by bit, or the size if there is none. -/
def seekFrom (b : Bits) (start : Nat) : Except Fault Nat := do
  let size ← b.size
  if start < size then b.seek (size - start) start else return size

/-- The first set bit, or the size if there is none. -/
def first (b : Bits) : Except Fault Nat :=
  match b.region with
  | [] => .ok b.register.mask.first
  | _ => b.seekFrom 0

/-- The first set bit after `i`, or the size if there is none. -/
def next (b : Bits) (i : Nat) : Except Fault Nat :=
  match b.region with
  | [] => .ok (b.register.mask.next i)
  | _ => b.seekFrom (i + 1)

def ones (b : Bits) : Except Fault (List Nat) := do
  let first ← b.first
  let size ← b.size
  go size [] size first
where
  /-- Adds the set bits from `i` on to those found before, which are in reverse order. -/
  go (size : Nat) (found : List Nat) : Nat → Nat → Except Fault (List Nat)
    | 0, _ => .ok found.reverse
    | left + 1, i =>
      if i < size then do go size (i :: found) left (← b.next i) else .ok found.reverse

def count (b : Bits) : Except Fault Nat :=
  match b.region with
  | [] => .ok b.register.mask.count
  | _ => do return (← b.ones).length

/-- A copy of the bits as a mask of the same size. -/
def snapshot (b : Bits) : Except Fault Mask := do
  let size ← b.size
  return Mask.ofOnes size (← b.ones)

/-- `width` bits starting at `offset`, one by one. -/
def run (b : Bits) (offset width : Nat) : Except Fault (List Bool) :=
  tabulate (fun i => do b.get (← Checked.add offset i)) 0 width

def valueAt (b : Bits) (offset width : Nat) : Except Fault Nat := do
  return Mask.valueOf (← b.run offset (min width 64))

def nibble (b : Bits) (i : Nat) : Except Fault Nat := do
  let stop := min (← Checked.add i 4) (← b.size)
  return Mask.valueOf (← b.run i (stop - i))

def extract (b : Bits) (offset width : Nat) : Except Fault Mask := do
  let bits := (← b.run offset width).toArray
  return Mask.ofFun width fun i => bits.getD i false

/-- The hexadecimal digits of the bits, most significant first, with the size in front if asked
for. -/
def hex (b : Bits) (sized : Bool) : Except Fault String := do
  let size ← b.size
  let digits := (← Checked.add size 3) / 4
  let nibbles ← tabulate (fun k => b.nibble (4 * (digits - 1 - k))) 0 digits
  return (if sized then toString size ++ "'h" else "") ++
    (if nibbles.isEmpty then "0" else String.ofList (nibbles.map Nat.digitChar))

/-- Whether two bit vectors have the same ones: compares them one by one until they differ. -/
def equals (a b : Bits) : Except Fault Bool := do
  let i ← a.first
  let j ← b.first
  let m ← a.size
  let n ← b.size
  go m n m i j
where
  /-- Compares from `i` and `j` on, where `m` and `n` are the sizes. -/
  go (m n : Nat) : Nat → Nat → Nat → Except Fault Bool
    | 0, i, j => .ok (m ≤ i && n ≤ j)
    | left + 1, i, j =>
      if i < m && j < n && i == j then do go m n left (← a.next i) (← b.next j)
      else .ok (m ≤ i && n ≤ j)

end Bits

end FsmFabric
