import FsmFabric.Bits.Basic

/-!
# Writing bits

Writes go through a region of a register, and the register is the state of a `BitEdit`. A write
that is refused changes nothing; an operation of several writes that fails part way keeps those
that were made.
-/

namespace FsmFabric

abbrev BitEdit := Edit Register BitError

namespace Region

variable (region : Region)

/-- The bits of the region as they are now. -/
def bits : BitEdit Bits := do return ⟨← get, region⟩

def write (i : Nat) (value : Bool) : BitEdit Unit :=
  ExceptT.mk fun r =>
    match r.locate region i with
    | .ok position => (.ok (), { r with mask := r.mask.put position value })
    | .error failure => (.error failure, r)

/-- Makes room for at least `count` bits, where that is possible. -/
def resize (count : Nat) : BitEdit Unit := do
  let r ← get
  let size ← Edit.ofFault (r.sizeOf region)
  if size < count then
    if region.isEmpty && r.growable then set { r with mask := r.mask.grow count }
    else Edit.refuse (.outOfBounds count size)

/-- Visits the set bits in ascending order, looking for the next one after each visit. -/
def sweep (visit : Nat → BitEdit Unit) : BitEdit Unit := do
  let b ← region.bits
  let first ← Edit.ofFault b.first
  go (← Edit.ofFault b.size) first
where
  go : Nat → Nat → BitEdit Unit
    | 0, _ => pure ()
    | left + 1, i => do
      let before ← region.bits
      if i < (← Edit.ofFault before.size) then
        visit i
        let after ← region.bits
        go left (← Edit.ofFault (after.next i))

def reset : BitEdit Unit := region.sweep fun i => region.write i false

/-- The number of binary digits of a number, none for zero. -/
def digitCount (value : Nat) : Nat := if value = 0 then 0 else value.log2 + 1

/-- Writes the binary digits of a number from bit 0 on, up to its highest one. -/
def writeNat (value : Nat) : BitEdit Unit :=
  Edit.forRange 0 (digitCount value) fun i => region.write i (value.testBit i)

/-- Copies every bit, zero or one, to the same position. -/
def copyFrom (source : Bits) : BitEdit Unit := do
  let size ← Edit.ofFault source.size
  Edit.forRange 0 size fun i => do region.write i (← Edit.ofFault (source.get i))

/-- Visits the set bits of other bits in ascending order. -/
def forOnes (source : Bits) (visit : Nat → BitEdit Unit) : BitEdit Unit := do
  let first ← Edit.ofFault source.first
  let size ← Edit.ofFault source.size
  go size size first
where
  go (size : Nat) : Nat → Nat → BitEdit Unit
    | 0, _ => pure ()
    | left + 1, i => do
      if i < size then
        visit i
        go size left (← Edit.ofFault (source.next i))

def copyOnes (source : Bits) : BitEdit Unit :=
  forOnes source fun i => region.write i true

def unionWith (other : Bits) : BitEdit Unit := region.copyOnes other

/-- Clears the bits that `other` lacks. -/
def intersectWith (other : Bits) : BitEdit Unit :=
  region.sweep fun i => do
    if !(← Edit.ofFault (other.get i)) then region.write i false

def setUnion (a b : Bits) : BitEdit Unit := do
  region.reset
  region.copyOnes b
  forOnes a fun i => region.write i true

def setIntersection (a b : Bits) : BitEdit Unit := do
  region.reset
  forOnes a fun i => do
    if ← Edit.ofFault (b.get i) then region.write i true

end Region

namespace Register

/-- A fixed register of `width` bits that holds a number, if it fits. -/
def ofNat (value width : Nat) : Except (Failure BitError) Register :=
  match (Region.writeNat [] value).outcome ⟨false, Mask.blank width⟩ with
  | (.ok _, r) => .ok r
  | (.error failure, _) => .error failure

def describe (r : Register) : String :=
  (if r.growable then "DynamicBitmask(" else "FixedBitmask(") ++ r.mask.text ++ ")"

/-- Registers of one kind agree: growable ones in their ones, fixed ones also in size. -/
def agrees (r s : Register) : Bool :=
  if r.growable then r.mask.equals s.mask else r.mask == s.mask

end Register

end FsmFabric
