import FsmFabric.Toml.Node
import FsmFabric.Toml.Number
import FsmFabric.Toml.Text

/-!
# Reading TOML

`Toml.read` gives the tree of a text, or the place from which on it makes no sense.
-/

namespace FsmFabric.Toml

open Rule

/-- The number of brackets that may be open at once, and one less than the parts of a key. -/
def maxDepth : Nat := 79

def place : Rule Nat := do return (← get).length

def isBareKey (c : Char) : Bool := c.isAlphanum || c == '_' || c == '-'

def keyPart : Rule Key := do
  blanks
  let start ← place
  let name ← match ← peek? with
    | some '"' => basicString
    | some '\'' => literalString
    | _ => String.ofList <$> takeSome isBareKey
  blanks
  return ⟨name, start⟩

def key : Rule (List Key) :=
  verify (separated keyPart (char '.')) fun parts =>
    if parts.length ≤ maxDepth then some parts else none

def pair (value : Rule Node) : Rule (List Key × Node) := do
  let path ← key
  commit do
    char '='
    blanks
    return (path, ← value)

/-- What stands between the brackets of an array. -/
def arrayItems (value : Rule Node) : Rule (List Node) := do
  let items ← optional do
    let items ← separated (gap *> value <* gap) (char ',')
    discard (optional (char ','))
    return items
  gap
  return items.getD []

/-- What stands between the braces of an inline table. -/
def inlineEntries (value : Rule Node) : Rule (List (List Key × Node)) := do
  let pairs ← optional (separated (pair value <* blanks) (char ','))
  blanks
  return pairs.getD []

def number : Rule Node := fun left =>
  let start := left.length
  match Number.moment? left, Number.float? left, Number.integer? left with
  | some rest, _, _ | none, some rest, _ => .ok (.scalar start, rest)
  | none, none, some (n, rest) => .ok (.integer start n, rest)
  | none, none, none => .error ⟨true, left⟩

/-- A word that is a value of its own. -/
def named (w : String) : Rule Node := do
  let start ← place
  word w
  return .scalar start

/-- A value, given how to read the values inside its brackets, if those may be opened. -/
def valueAround (inner : Option (Rule Node)) : Rule Node := do
  let start ← place
  match ← peek? with
  | some '"' | some '\'' => return .text start (← stringValue)
  | some '[' =>
    char '['
    let items ← commit (inner.elim miss arrayItems)
    commit (char ']')
    return .array start items
  | some '\x7b' =>
    char '\x7b'
    let table ← commit (verify (inner.elim miss inlineEntries) (Node.ofPairs start))
    commit (char '\x7d')
    return table
  | some 't' => commit (named "true")
  | some 'f' => commit (named "false")
  | some 'i' => named "inf"
  | some 'n' => named "nan"
  | some c => if Number.isDigit c || c == '+' || c == '-' then number else miss
  | none => miss

/-- A value in which `depth` brackets may be open at once. -/
def value : Nat → Rule Node
  | 0 => valueAround none
  | depth + 1 => valueAround (some (value depth))

/-- A document that is being read: the tree so far and the path of the open table. -/
structure Draft where
  root : Node
  path : List Key

def assignment (d : Draft) : Rule Draft :=
  verify (pair (value maxDepth) <* lineRest) fun (path, value) => do
    return { d with root := ← d.root.update .header d.path (Node.assign path value) }

def header (d : Draft) : Rule Draft := do
  let start ← place
  match (← get).take 2 with
  | ['[', '['] =>
    verify (word "[[" *> commit key <* commit (word "]]") <* commit lineRest) fun path => do
      return ⟨← d.root.openArray start path, path⟩
  | _ =>
    verify (char '[' *> commit key <* commit (char ']') <* commit lineRest) fun path => do
      return ⟨← d.root.openTable start path, path⟩

def line (d : Draft) : Rule Draft := do
  let d ← match ← peek? with
    | none => miss
    | some '#' => commit (comment *> lineEnd *> pure d)
    | some '[' => commit (header d)
    | some '\n' | some '\r' => newline *> pure d
    | some _ => commit (assignment d)
  blanks
  return d

/-- At most `bound` lines. -/
def lines : Nat → Draft → Rule Draft
  | 0, d => return d
  | bound + 1, d => do
    match ← optional (line d) with
    | none => return d
    | some d => lines bound d

/-- A whole text. -/
def document : Rule Node := do
  let length ← place
  discard (optional (char (Char.ofNat 0xFEFF)))
  blanks
  let d ← lines length ⟨.table .header (some length) [], []⟩
  atEnd
  return d.root

/-- The tree of a text, or the number of characters left where it is wrong. -/
def read (text : String) : Except Nat Node :=
  match document text.toList with
  | .ok (root, _) => .ok root
  | .error stop => .error stop.left.length

/-- The byte offset at which a number of characters is left of a text. -/
def byteOffset (text : String) (left : Nat) : Nat :=
  (text.toList.take (text.length - left)).foldl (fun total c => total + c.utf8Size) 0

end FsmFabric.Toml
