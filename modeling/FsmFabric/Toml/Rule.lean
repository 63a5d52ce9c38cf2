/-!
# Reading rules

A rule reads from the front of the characters that are left. It can miss, and then another rule may
be tried from the same place; or it can break, and then the whole text is wrong at that place.
-/

namespace FsmFabric.Toml

/-- Where a rule gave up, and whether that is final. -/
structure Stop where
  broken : Bool
  left : List Char

/-- Reads from the front of the characters that are left. -/
abbrev Rule := StateT (List Char) (Except Stop)

namespace Rule

variable {α β : Type}

def miss : Rule α := fun left => .error ⟨false, left⟩

/-- Makes a miss final: nothing else can stand here. -/
def commit (rule : Rule α) : Rule α := fun left =>
  (rule left).mapError fun stop => { stop with broken := true }

/-- Tries a rule; if it misses, nothing is read. -/
def optional (rule : Rule α) : Rule (Option α) := fun left =>
  match rule left with
  | .ok (a, rest) => .ok (some a, rest)
  | .error stop => if stop.broken then .error stop else .ok (none, left)

def either (first second : Rule α) : Rule α := fun left =>
  match first left with
  | .ok r => .ok r
  | .error stop => if stop.broken then .error stop else second left

/-- Reads nothing, but requires that a rule matches here. -/
def ahead (rule : Rule α) : Rule Unit := fun left => do
  let _ ← rule left
  return ((), left)

/-- Requires more of what was read; if that fails, the miss is where reading began. -/
def verify (rule : Rule α) (check : α → Option β) : Rule β := fun left => do
  let (a, rest) ← rule left
  match check a with
  | some b => return (b, rest)
  | none => .error ⟨false, left⟩

def peek? : Rule (Option Char) := do return (← get).head?

def one (p : Char → Bool) : Rule Char := fun left =>
  match left with
  | c :: rest => if p c then .ok (c, rest) else .error ⟨false, left⟩
  | [] => .error ⟨false, left⟩

def char (c : Char) : Rule Unit := discard (one (· == c))

def word (w : String) : Rule Unit := w.toList.forM char

/-- All characters of a class that follow. -/
def takeWhile (p : Char → Bool) : Rule (List Char) := do
  let left ← get
  set (left.dropWhile p)
  return left.takeWhile p

def takeSome (p : Char → Bool) : Rule (List Char) := do
  return (← one p) :: (← takeWhile p)

def atEnd : Rule Unit := fun left => if left.isEmpty then .ok ((), left) else .error ⟨false, left⟩

/-- Repeats a rule at most `bound` times. -/
def manyWithin (rule : Rule α) : Nat → Rule (List α)
  | 0 => return []
  | bound + 1 => do
    match ← optional rule with
    | none => return []
    | some a => return a :: (← manyWithin rule bound)

/-- Repeats a rule, which reads something each time, as often as it matches. -/
def many (rule : Rule α) : Rule (List α) := do manyWithin rule (← get).length

/-- One item or several with a separator between them. -/
def separated (item : Rule α) (separator : Rule Unit) : Rule (List α) := do
  let first ← item
  return first :: (← many (separator *> item))

end Rule

open Rule

/-! ## Blanks, line breaks and comments -/

def isBlank (c : Char) : Bool := c == ' ' || c == '\t'

/-- A character that may stand in a comment. -/
def isPrintable (c : Char) : Bool := c == '\t' || (' ' ≤ c && c != '\x7f')

def blanks : Rule Unit := discard (takeWhile isBlank)

def newline : Rule Unit := either (char '\n') (word "\r\n")

/-- The end of a line or of the text. -/
def lineEnd : Rule Unit := either newline atEnd

def comment : Rule Unit := do
  char '#'
  discard (takeWhile isPrintable)

/-- What may follow on a line that is complete. -/
def lineRest : Rule Unit := do
  blanks
  discard (optional comment)
  lineEnd

/-- Blanks, line breaks and whole comments. -/
def gap : Rule Unit := do go (← get).length
where
  go : Nat → Rule Unit
    | 0 => blanks
    | bound + 1 => do
      blanks
      match ← peek? with
      | some '#' =>
        comment
        newline
        go bound
      | some '\n' | some '\r' =>
        newline
        go bound
      | _ => return

end FsmFabric.Toml
