import FsmFabric.Fault

/-!
# The layout of a configuration word

The image of a chip is an array of words of equal width, one per machine state. A `WordLayout`
names the fields of a word. Fields of one role are told apart by their order: the `n`-th jump,
output and configuration fields belong to the `n`-th lookup table. Fields may overlap.
-/

namespace FsmFabric

/-- What a field of a word holds. -/
inductive FieldRole where
  /-- The flag that sends control on to the next word when no table fires. -/
  | inc
  /-- The input selections of all multiplexers. -/
  | mux
  /-- The word to go to when a table fires. -/
  | jmp
  /-- The outputs to drive when a table fires, the last one when none does. -/
  | out
  /-- The contents of a lookup table. -/
  | cfg
deriving DecidableEq, Repr

def FieldRole.text : FieldRole → String
  | inc => "INC"
  | mux => "MUX"
  | jmp => "JMP"
  | out => "OUT"
  | cfg => "CFG"

/-- A run of bits in a word. -/
structure Field where
  role : FieldRole
  offset : Nat
  width : Nat
deriving DecidableEq, Repr

/-- The number of words, their width in bits, and the fields of each word. -/
structure WordLayout where
  words : Nat
  width : Nat
  fields : List Field
deriving DecidableEq, Repr

namespace WordLayout

/-- The fields of one role in order. -/
def ofRole (l : WordLayout) (role : FieldRole) : List Field :=
  l.fields.filter fun f => f.role == role

def field? (l : WordLayout) (role : FieldRole) (n : Nat) : Option Field := (l.ofRole role)[n]?

def countOf (l : WordLayout) (role : FieldRole) : Nat := (l.ofRole role).length

def imageBits (l : WordLayout) : Except Fault Nat := Checked.mul l.words l.width

/-- Where a word starts in the image; word 0 holds the highest bits. -/
def wordOffset (l : WordLayout) (index : Nat) : Except Fault Nat := do
  Checked.mul (← Checked.sub (← Checked.sub l.words index) 1) l.width

end WordLayout

end FsmFabric
