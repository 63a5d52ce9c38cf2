import FsmFabric.Bits.Edit
import FsmFabric.Error

/-!
# Writing words

The compiler writes the words of an image as bits, and reports refused bits as its own errors.
-/

namespace FsmFabric

abbrev WordEdit := Edit Register Error

namespace WordEdit

variable {α : Type}

def ofBits (act : BitEdit α) : WordEdit α := act.mapError Error.ofBits

def refuse (error : Error) : WordEdit α := Edit.refuse error

def ofResult (r : Result α) : WordEdit α := Edit.ofExcept r

end WordEdit

/-- Field `n` of a role, which the layout must have. -/
def WordLayout.require (l : WordLayout) (role : FieldRole) (n : Nat) : Result Field :=
  match l.field? role n with
  | some field => .ok field
  | none => refuse (.mismatch (.missingField role n))

def Field.region (f : Field) (word : Region) : Region := .window f.offset f.width :: word

/-- Writes the low bits of a mask into a field, as many as it holds. -/
def Field.write (f : Field) (word : Region) (bits : Mask) : WordEdit Unit :=
  WordEdit.ofBits (Edit.forRange 0 f.width fun i => (f.region word).write i (bits.get i))

end FsmFabric
