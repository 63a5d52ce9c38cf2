import FsmFabric.Fault

/-!
# Boxed tables

A table has a header line and rows of cells. Every column is as wide as its widest cell in bytes,
and cells stand at its right edge. Rows may have fewer cells than there are columns, or more: then
they add columns without a header. There is a limit to the width of a column.
-/

namespace FsmFabric

structure Table where
  headers : List String := []
  rows : List (List String) := []

namespace Table

/-- The larger of two lists, entry by entry, as long as the longer one. -/
def widen (xs ys : List Nat) : List Nat :=
  xs.zipWith max ys ++ xs.drop ys.length ++ ys.drop xs.length

def widths (t : Table) : List Nat :=
  t.rows.foldl (fun ws row => widen ws (row.map String.utf8ByteSize))
    (t.headers.map String.utf8ByteSize)

def alignRight (width : Nat) (cell : String) : String :=
  String.ofList (List.replicate (width - cell.length) ' ') ++ cell

def rule (widths : List Nat) : String :=
  "+" ++ String.join (widths.map fun w => String.ofList (List.replicate (w + 2) '-') ++ "+") ++ "\n"

/-- A line of cells, with empty ones for those that are missing. -/
def line (widths : List Nat) (cells : List String) : String :=
  let filled := cells ++ List.replicate (widths.length - cells.length) ""
  "|" ++ String.join (widths.zipWith (fun w cell => " " ++ alignRight w cell ++ " |") filled) ++ "\n"

def maxWidth : Nat := 65535

/-- The text of a table none of whose columns is too wide. -/
def render (t : Table) : Except Fault String :=
  let ws := t.widths
  match ws.find? fun w => maxWidth < w with
  | some w => .error (.columnTooWide w)
  | none =>
    .ok (rule ws ++ line ws t.headers ++ rule ws ++ String.join (t.rows.map (line ws)) ++ rule ws)

end Table

end FsmFabric
