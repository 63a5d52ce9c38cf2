/-!
# Diagnostics

A `Diagnostic` points at a character of a text: its line, its column, and the line itself.
-/

namespace FsmFabric

/-- A message about a place in a text. Lines and columns count from one. -/
structure Diagnostic where
  file : String
  line : Nat
  column : Nat
  sourceLine : String
  message : String
deriving DecidableEq, Repr

namespace Diagnostic

/-- The number of characters at the front that lie before a byte offset as a whole, added to those
counted before. -/
def countBefore (counted offset : Nat) : List Char → Nat
  | [] => counted
  | c :: rest =>
    if c.utf8Size ≤ offset then countBefore (counted + 1) (offset - c.utf8Size) rest else counted

/-- Cuts a text at a byte offset, or before the character that the offset falls into. -/
def cut (offset : Nat) (text : List Char) : List Char × List Char :=
  text.splitAt (countBefore 0 offset text)

def lastLine (before : List Char) : List Char :=
  (before.reverse.takeWhile (· != '\n')).reverse

/-- Points at the character of a text that holds byte `offset`, or at its end. -/
def locate (file source : String) (offset : Nat) (message : String) : Diagnostic :=
  let (before, after) := cut offset source.toList
  { file
    line := before.count '\n' + 1
    column := (lastLine before).length + 1
    sourceLine := String.ofList (lastLine before ++ after.takeWhile (· != '\n'))
    message }

/-- A line with a caret under the column; tabs are kept so that it lines up. -/
def pointer (d : Diagnostic) : String :=
  String.ofList ((d.sourceLine.toList.take (d.column - 1)).map fun c => if c == '\t' then c else ' ')
    ++ "^"

/-- The text of a diagnostic in four lines. -/
def text (d : Diagnostic) : String :=
  let place := d.file ++ ":" ++ toString d.line ++ ":" ++ toString d.column ++ ": "
  place ++ "error parsing config\n" ++ place ++ d.sourceLine ++ "\n" ++ place ++ d.pointer ++ "\n" ++
    place ++ "error: " ++ d.message

end Diagnostic

end FsmFabric
