import FsmFabric.Chip.Mux
import FsmFabric.IdMap
import FsmFabric.Ordered

/-!
# Which multiplexer drives which pin

Every pin of the lookup tables (a virtual input) is driven by one multiplexer, and a multiplexer
can drive several pins. Some pins are wired explicitly; the others take the multiplexers 0, 1, 2, …
in ascending order. `bestFit` chooses the multiplexer that serves a demand for pins best.
-/

namespace FsmFabric

/-- The wiring between a multiplexer bank and the pins. -/
structure Wiring where
  bank : MuxBank
  /-- The pins wired explicitly, each with its multiplexer, in ascending order. -/
  pairs : List (Nat × Nat)
  /-- The multiplexer of every pin. -/
  drivers : List Nat
deriving DecidableEq, Repr

namespace Wiring

/-- The multiplexer of a pin, where the listed pins are in ascending order: the listed one, or the
next one after those of the unlisted pins below. -/
def find (pairs : List (Nat × Nat)) (pin : Nat) : Except Fault Nat :=
  match Ordered.search pairs pin with
  | .found i =>
    match pairs[i]? with
    | some pair => .ok pair.2
    | none => .error (.indexOutsideTable i pairs.length)
  | .gap below => Checked.sub pin below

/-- The size of the number of a multiplexer in memory. -/
def numberBytes : Nat := 8

/-- The multiplexer of a pin, which must be one of the bank. -/
def driverOf (bank : MuxBank) (pairs : List (Nat × Nat)) (pin : Nat) : Result Nat := do
  let mux ← find pairs pin
  if mux < bank.count then .ok mux else refuse (.mismatch (.muxOutside pin mux bank.count))

/-- Wires `pins` pins. No pin may be listed twice, and every pin must get a multiplexer of the bank.
Room is asked for here alone. Later tables for the same pins and multiplexers take 16 bytes for an
entry, so one of them could lack room only if a list made here filled `2 ^ 62` bytes. -/
def resolve (bank : MuxBank) (pins : Nat) (pairs : List (Nat × Nat)) : Result Wiring :=
  let pairs := Ordered.sort pairs
  match Ordered.repeated? pairs with
  | some pin => refuse (.mismatch (.wiredTwice pin))
  | none => do
    Checked.room pins numberBytes
    Checked.room bank.count numberBytes
    return ⟨bank, pairs, ← tabulate (driverOf bank pairs) 0 pins⟩

def lookup (w : Wiring) (pin : Nat) : Except Fault Nat := find w.pairs pin

def pinCount (w : Wiring) : Nat := w.drivers.length

/-- The pins that a multiplexer drives, in ascending order. -/
def pinsOf (w : Wiring) (mux : Nat) : List Nat :=
  (w.drivers.zipIdx.filter fun p => p.1 == mux).map (·.2)

/-- How often each number occurs in a list. -/
def tally (l : List Nat) : IdMap Nat :=
  l.foldl (fun counts n => counts.insert n ((counts.find? n).getD 0 + 1)) IdMap.empty

def counts (w : Wiring) : IdMap Nat := tally w.drivers

def fanOut (w : Wiring) (mux : Nat) : Except Fault Nat :=
  if mux < w.bank.count then .ok ((w.counts.find? mux).getD 0)
  else .error (.indexOutsideTable mux w.bank.count)

/-- How many of the demanded pins each multiplexer drives. -/
def wanted (w : Wiring) (demand : Mask) : IdMap Nat :=
  tally (demand.ones.filterMap fun pin => w.drivers[pin]?)

/-- The score of a multiplexer whose pins are exactly demanded, one for each party. It is above all
others. -/
def perfectScore : Nat := 255

/-- The best of `left` multiplexers from `mux` on and of the best one before them, given with its
score. One that drives nothing demanded is passed over, and a perfect one ends the search. Any other
gets one point, one more if all its pins are demanded, one more if it serves every party, and one
more if it is shared while several parties wait. -/
def bestFrom (counts wanted : IdMap Nat) (parties : Nat) : Nat → Nat → Nat × Nat → Nat × Nat
  | 0, _, best => best
  | left + 1, mux, best =>
    let wants := (wanted.find? mux).getD 0
    let pins := (counts.find? mux).getD 0
    if wants = 0 then bestFrom counts wanted parties left (mux + 1) best
    else if pins = wants ∧ wants = parties then (mux, perfectScore)
    else
      let whole := if pins = wants then 1 else 0
      let every := if wants = parties then 1 else 0
      let shared := if parties ≠ 1 ∧ wants ≠ 1 then 1 else 0
      let score := 1 + whole + every + shared
      bestFrom counts wanted parties left (mux + 1) (if best.2 < score then (mux, score) else best)

/-- All pins of the multiplexer that serves a demand best, if one serves it at all. -/
def bestFit (w : Wiring) (demand : Mask) (parties : Nat) : Option (List Nat) :=
  match bestFrom w.counts (w.wanted demand) parties w.bank.count 0 (0, 0) with
  | (_, 0) => none
  | (mux, _ + 1) => some (w.pinsOf mux)

/-- The selection of every multiplexer for an assignment of inputs to pins; pins of one
multiplexer must agree, and an unused multiplexer selects input 0. There is room for as many entries
as `resolve` made room for. -/
def selections (w : Wiring) (assigned : List (Option Nat)) : Except Error (List Nat) := do
  let chosen ← w.drivers.zipIdx.foldlM (fun (chosen : IdMap Nat) (mux, pin) =>
    match (assigned[pin]?).join with
    | none => .ok chosen
    | some input =>
      match chosen.find? mux with
      | some before =>
        if before = input then .ok chosen else .error (.internal (.sharedMux mux before input))
      | none => .ok (chosen.insert mux input)) IdMap.empty
  return (List.range w.bank.count).map fun mux => (chosen.find? mux).getD 0

/-- Writes the selections for an assignment of inputs to pins into a word. -/
def program (w : Wiring) (layout : WordLayout) (word : Region) (assigned : List (Option Nat)) :
    WordEdit Unit := do
  let selects ← WordEdit.ofResult ((w.selections assigned).mapError .refused)
  w.bank.program layout word selects

end Wiring

end FsmFabric
