import FsmFabric.Fault
import FsmFabric.Tabulate

/-!
# Groups of positions

A `Group` names a finite sequence of positions: entry `i` of a group of size `n` is defined for
`i < n`. Groups are built from runs, slices, concatenations and explicit tables. A concatenation may
be larger than any index; then it has a `size` but no `extent`.
-/

namespace FsmFabric

/-- A finite sequence of positions. -/
inductive Group where
  /-- The positions `start`, `start + 1`, …, `count` of them. -/
  | offset (start count : Nat)
  /-- Entries `first` to `first + count - 1` of another group. -/
  | slice (parent : Group) (first count : Nat)
  /-- The entries of `low`, then those of `high`. -/
  | concat (high low : Group)
  /-- The listed positions. -/
  | table (entries : List Nat)
deriving DecidableEq, Repr

namespace Group

def size : Group → Nat
  | offset _ count => count
  | slice _ _ count => count
  | concat high low => high.size + low.size
  | table entries => entries.length

/-- The number of entries, which must be in range. -/
def extent (g : Group) : Except Fault Nat := Checked.within g.size

/-- Entry `i` of a group. -/
def entry : Group → Nat → Except Fault Nat
  | offset start count, i =>
    if i < count then Checked.add start i else .error (.bitOutsideOffset i count)
  | slice parent first count, i =>
    if i < count then do parent.entry (← Checked.add first i) else .error (.bitOutsideSlice i count)
  | concat high low, i => do
    let below ← low.extent
    if i < below then low.entry i else high.entry (i - below)
  | table entries, i =>
    match entries[i]? with
    | some position => .ok position
    | none => .error (.indexOutsideTable i entries.length)

def positionBytes : Nat := 8

/-- All entries in order, put behind `before` other ones. -/
def entriesAfter (before : Nat) (g : Group) : Except Fault (List Nat) := do
  let count ← g.extent
  Checked.room (before + count) positionBytes
  tabulate g.entry 0 count

def entries (g : Group) : Except Fault (List Nat) := g.entriesAfter 0

/-- Cuts a slice out of a group; it must lie inside. -/
def cut (parent : Group) (first count : Nat) : Except Fault Group := do
  let stop ← Checked.add first count
  let room ← parent.extent
  if stop ≤ room then .ok (slice parent first count)
  else .error (.sliceOutsideGroup first count room)

/-- The entries of a table and, behind them, those of a group. -/
def append (listed : List Nat) (g : Group) : Except Fault (List Nat) := do
  return listed ++ (← g.entriesAfter listed.length)

/-- Positions as text: `I3` for a single one, `I` and a braced list for any other number. -/
def textOf : List Nat → String
  | [single] => "I" ++ toString single
  | many => "I\x7b" ++ ",".intercalate (many.map toString) ++ "\x7d"

end Group

end FsmFabric
