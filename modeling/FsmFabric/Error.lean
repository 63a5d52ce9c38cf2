import FsmFabric.Bits.Basic
import FsmFabric.Chip.Layout
import FsmFabric.Position

/-!
# Why a design is refused

Every cause is a constructor, and `Error.message` is the one place where causes become words.
-/

namespace FsmFabric

/-- A rule of the compiler itself was broken. -/
inductive Violation where
  /-- Bits were refused. -/
  | bits (error : BitError)
  /-- Two inputs were given to one multiplexer. -/
  | sharedMux (mux before now : Nat)
  /-- The image cannot be listed by bytes. -/
  | unalignedWords (width : Nat)
  /-- A control bit past the register. -/
  | controlBit (bit : Nat)
  /-- A change of sides without an open conditional. -/
  | strayElse
  /-- The end of a conditional that is not open. -/
  | strayJoin
  /-- An open conditional without sides. -/
  | openLeaf
  | described (text : String)
deriving DecidableEq, Repr

def Violation.message : Violation → String
  | bits error => error.message
  | sharedMux mux before now => s!"mux {mux} driven by inputs {before} and {now}"
  | unalignedWords width => s!"hex output needs byte-aligned words, word width is {width}"
  | controlBit bit => s!"control bit {bit} outside the 32-bit register"
  | strayElse => "switch outside of a conditional"
  | strayJoin => "join outside of a conditional"
  | openLeaf => "open scope is not a branch"
  | described text => text

/-- The chip has too little of something. -/
inductive Shortage where
  /-- A state with more transitions than a word holds. -/
  | transitions (state count room : Nat)
  /-- A word number that is too large for its jump field. -/
  | jumpField (word width : Nat)
  /-- A conditional output without a table. -/
  | conditionalOutput (output : Nat)
  /-- A table with fewer pins than its condition has inputs. -/
  | pins (table reads room : Nat)
  /-- An input that no multiplexer can select. -/
  | selectable (input room : Nat)
  /-- More words needed than there are. -/
  | words (needed room : Nat)
  | described (text : String)
deriving DecidableEq, Repr

def Shortage.message : Shortage → String
  | transitions state count room =>
    s!"state {state} has {count} transitions, a word holds {room}"
  | jumpField word width => s!"word {word} does not fit the {width}-bit JMP field"
  | conditionalOutput output => s!"conditional output {output} has no component"
  | pins table reads room => s!"component {table} reads {reads} inputs but has {room} pins"
  | selectable input room => s!"input {input} is beyond the {room} selectable inputs"
  | words needed room => s!"{needed} physical states needed, the STEW holds {room}"
  | described text => text

/-- The chip description does not hang together. -/
inductive Mismatch where
  /-- The layout lacks a field. -/
  | missingField (role : FieldRole) (n : Nat)
  /-- The multiplexer field is too narrow. -/
  | muxField (width count bits needed : Nat)
  /-- A virtual input is wired twice. -/
  | wiredTwice (pin : Nat)
  /-- A virtual input is wired to a multiplexer that does not exist. -/
  | muxOutside (pin mux count : Nat)
  /-- A table reads pins that do not exist. -/
  | pinsOutside (offset size count : Nat)
  | described (text : String)
deriving DecidableEq, Repr

def Mismatch.message : Mismatch → String
  | missingField role n =>
    "STEW has no " ++ role.text ++ " field #" ++ toString n ++ " required by the decision tree"
  | muxField width count bits needed =>
    s!"STEW MUX field holds {width} bits, {count} muxes of {bits} bits need {needed}"
  | wiredTwice pin => s!"wire-map lists virtual input {pin} twice"
  | muxOutside pin mux count =>
    s!"virtual input {pin} resolves to mux {mux}, only {count} muxes exist"
  | pinsOutside offset size count =>
    s!"component inputs {offset}+{size} outside the {count} virtual inputs"
  | described text => text

/-- A design script makes no sense. -/
inductive ScriptFault where
  /-- The text is not a script. -/
  | unreadable
  /-- A change of sides without an open conditional. -/
  | strayElse
  /-- The end of a conditional that is not open. -/
  | strayJoin
  /-- Conditionals are still open at the end. -/
  | unclosed (count : Nat) (module : String)
  | described (text : String)
deriving DecidableEq, Repr

def ScriptFault.message : ScriptFault → String
  | unreadable => "the text is not a design script"
  | strayElse => "else outside of a conditional"
  | strayJoin => "join outside of a conditional"
  | unclosed count module =>
    toString count ++ " conditional scope(s) left open in module " ++ module
  | described text => text

/-- Why a design is refused, with the place where known. -/
inductive Error where
  | internal (cause : Violation)
  | duplicateState (state : Nat) (place : Position)
  | undefinedTarget (target : Nat) (place : Option Position)
  | capacity (cause : Shortage) (place : Option Position)
  | noWire (inputs : String) (place : Option Position)
  | script (cause : ScriptFault) (place : Option Position)
  | mismatch (cause : Mismatch)
deriving DecidableEq, Repr

namespace Error

def message : Error → String
  | internal cause => "internal compiler error: " ++ cause.message
  | duplicateState state place => place.text ++ ": duplicate state " ++ toString state
  | undefinedTarget target place =>
    Position.textOf place ++ ": jump to undefined state " ++ toString target
  | capacity cause place => Position.textOf place ++ ": capacity exceeded: " ++ cause.message
  | noWire inputs place =>
    Position.textOf place ++ ": no suitable wire for virtual inputs " ++ inputs
  | script cause place => Position.textOf place ++ ": malformed design script: " ++ cause.message
  | mismatch cause => "configuration mismatch: " ++ cause.message

def place? : Error → Option Position
  | duplicateState _ place => some place
  | undefinedTarget _ place | capacity _ place | noWire _ place | script _ place => place
  | internal _ | mismatch _ => none

def ofBits (error : BitError) : Error := internal (.bits error)

end Error

/-- A result that may be refused with an `Error` or fault. -/
abbrev Result := Except (Failure Error)

def refuse {α : Type} (error : Error) : Result α := .error (.refused error)

end FsmFabric
