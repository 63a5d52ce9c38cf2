import FsmFabric.Mask.Storage

/-!
# Masks

A `Mask` is a finite vector of bits kept in tidy storage. Positions count from zero, and a position
at or past the size reads as false, so a mask is also the set of its ones. Two masks are `equals`
when they have the same ones, whatever their sizes.
-/

namespace FsmFabric

/-- A vector of bits. -/
@[ext]
structure Mask where
  storage : Storage
  tidy : storage.Tidy
deriving DecidableEq, Repr

namespace Mask

def size (m : Mask) : Nat := m.storage.size

/-- Bit `i`, false at or past the size. -/
def get (m : Mask) (i : Nat) : Bool := m.storage.get i

def blank (size : Nat) : Mask := ⟨Storage.blank size, Storage.tidy_blank size⟩

def empty : Mask := blank 0

instance : Inhabited Mask := ⟨empty⟩

/-- The mask enlarged to at least `size` bits. -/
def grow (m : Mask) (size : Nat) : Mask := ⟨m.storage.grow size, m.tidy.grow size⟩

/-- Bit `i` written, enlarging the mask if it lies past the end. -/
def put (m : Mask) (i : Nat) (value : Bool) : Mask := ⟨m.storage.put i value, m.tidy.put i value⟩

def insert (m : Mask) (i : Nat) : Mask := m.put i true

/-- The mask kept in a storage, if that is tidy. -/
def ofStorage? (s : Storage) : Option Mask :=
  if h : s.isTidy = true then some ⟨s, Storage.tidy_of_isTidy h⟩ else none

/-- The mask of the given size with bit `i` equal to `f i`. -/
def ofFun (size : Nat) (f : Nat → Bool) : Mask :=
  (List.range size).foldl (fun m i => if f i then m.put i true else m) (blank size)

/-- A mask of at least the given size with the given bits set. -/
def ofOnes (size : Nat) (ones : List Nat) : Mask := ones.foldl insert (blank size)

/-- The low `width` bits of a 64-bit number. -/
def ofNat (value width : Nat) : Mask := ofFun width fun i => decide (i < 64) && value.testBit i

/-- The mask written in binary, most significant bit first; refuses other characters. -/
def ofBinary? (text : String) : Option Mask :=
  let digits := text.toList.reverse
  if digits.all fun c => c == '0' || c == '1' then
    some (ofFun digits.length fun i => digits[i]? == some '1')
  else none

/-- The first set bit, or the size if there is none. -/
def first (m : Mask) : Nat := m.storage.scan 0

/-- The first set bit after `i`, or the size if there is none. -/
def next (m : Mask) (i : Nat) : Nat := m.storage.scan (i + 1)

def count (m : Mask) : Nat := m.storage.population

def any (m : Mask) : Bool := m.storage.words.any (· != 0)

/-- The set bits in ascending order. -/
def ones (m : Mask) : List Nat := go [] m.size m.first
where
  /-- Adds the set bits from `i` on to those found before, which are in reverse order. -/
  go (found : List Nat) : Nat → Nat → List Nat
    | 0, _ => found.reverse
    | left + 1, i => if i < m.size then go (i :: found) left (m.next i) else found.reverse

/-- Whether two masks have the same ones. -/
def equals (m n : Mask) : Bool := m.ones == n.ones

/-- The mask without the bits that `other` lacks. -/
def intersect (m other : Mask) : Mask :=
  m.ones.foldl (fun m i => if other.get i then m else m.put i false) m

/-- The mask without the bits of `other`; as large as the largest of them needs. -/
def without (m other : Mask) : Mask :=
  other.ones.foldl (fun m i => m.put i false) m

def extract (m : Mask) (offset width : Nat) : Mask := ofFun width fun i => m.get (offset + i)

/-- The number with the given binary digits, least significant first. -/
def valueOf : List Bool → Nat
  | [] => 0
  | b :: rest => b.toNat + 2 * valueOf rest

def valueAt (m : Mask) (offset width : Nat) : Nat :=
  valueOf ((List.range width).map fun i => m.get (offset + i))

/-! ## Reading what was written -/

theorem get_of_size_le (m : Mask) {i : Nat} (h : m.size ≤ i) : m.get i = false := by
  have past : ¬ i < m.storage.size := by
    rw [size] at h
    omega
  simp [get, Storage.get, past]

theorem get_eq_stored (m : Mask) (i : Nat) : m.get i = m.storage.stored i := by
  by_cases h : i < m.storage.size
  · simp [get, Storage.get, h]
  · simp [get, Storage.get, h, m.tidy.clear i (by omega)]

@[simp] theorem size_blank (size : Nat) : (blank size).size = size := rfl

@[simp] theorem get_blank (size i : Nat) : (blank size).get i = false := by
  rw [get_eq_stored]
  exact Storage.stored_blank size i

@[simp] theorem size_put (m : Mask) (i : Nat) (value : Bool) :
    (m.put i value).size = max m.size (i + 1) :=
  Storage.size_put m.storage i value

theorem get_put (m : Mask) (i : Nat) (value : Bool) (j : Nat) :
    (m.put i value).get j = if j = i then value else m.get j := by
  simp only [get_eq_stored]
  exact Storage.stored_put m.tidy i value j

@[simp] theorem size_grow (m : Mask) (size : Nat) : (m.grow size).size = max m.size size :=
  Storage.size_grow m.storage size

@[simp] theorem get_grow (m : Mask) (size i : Nat) : (m.grow size).get i = m.get i := by
  simp only [get_eq_stored]
  exact Storage.stored_grow m.storage size i

end Mask

end FsmFabric
