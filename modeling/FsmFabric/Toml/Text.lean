import FsmFabric.Json.Token
import FsmFabric.Toml.Rule

/-!
# TOML strings

Basic strings have escapes and literal strings have none; both may run over several lines between
tripled quotes.
-/

namespace FsmFabric.Toml

open Rule

/-- A character that stands for itself in a basic string. -/
def isBasic (c : Char) : Bool := isPrintable c && c != '"' && c != '\\'

/-- A character that stands for itself in a literal string. -/
def isLiteral (c : Char) : Bool := isPrintable c && c != '\''

def charOf? (n : Nat) : Option Char :=
  if n < 0xD800 ∨ (0xE000 ≤ n ∧ n < 0x110000) then some (Char.ofNat n) else none

/-- Exactly `count` hexadecimal digits that number a character. -/
def hexEscape (count : Nat) : Rule Char :=
  verify (fun left => .ok (left.take count, left.drop count)) fun digits => do
    let values ← digits.mapM Json.hexValue?
    if values.length = count then charOf? (values.foldl (fun n d => 16 * n + d) 0) else none

def escape : Rule Char := do
  char '\\'
  match ← one fun _ => true with
  | 'b' => return '\x08'
  | 't' => return '\t'
  | 'n' => return '\n'
  | 'f' => return '\x0c'
  | 'r' => return '\r'
  | '"' => return '"'
  | '\\' => return '\\'
  | 'u' => commit (hexEscape 4)
  | 'U' => commit (hexEscape 8)
  | _ => commit miss

def basicPart : Rule (List Char) := either (takeSome isBasic) (do return [← escape])

/-- A string in double quotes on one line. -/
def basicString : Rule String := do
  char '"'
  let parts ← many basicPart
  commit (char '"')
  return String.ofList parts.flatten

/-- A string in single quotes on one line. -/
def literalString : Rule String := do
  char '\''
  let body ← takeWhile isLiteral
  commit (char '\'')
  return String.ofList body

def blankOrNewline : Rule Unit := either newline (discard (takeSome isBlank))

/-- A backslash at the end of a line drops all blanks and line breaks up to the next character. -/
def continuation : Rule Unit := do
  char '\\'
  blanks
  newline
  discard (many blankOrNewline)

/-- A part of a basic string that runs over several lines. -/
def basicLinesPart : Rule (List Char) :=
  either (takeSome isBasic)
    (either (continuation *> pure [])
      (either (do return [← escape]) (newline *> pure ['\n'])))

/-- A part of a literal string that runs over several lines. -/
def literalLinesPart : Rule (List Char) := either (takeSome isLiteral) (newline *> pure ['\n'])

/-- Two quotes or one, if what follows them matches. -/
def quotesBefore (quote : Char) (next : Rule Unit) : Rule (List Char) :=
  either (char quote *> char quote *> ahead next *> pure [quote, quote])
    (char quote *> ahead next *> pure [quote])

/-- A string between tripled quotes. A line break right after the opening is dropped, and one or
two quotes may stand anywhere inside. -/
def linesString (quote : Char) (part : Rule (List Char)) : Rule String := do
  let fence : Rule Unit := char quote *> char quote *> char quote
  fence
  discard (optional newline)
  let body ← commit do
    let first ← many part
    let more ← many do
      let quotes ← quotesBefore quote (discard (one (· != quote)))
      return quotes ++ (← part) ++ (← many part).flatten
    let last ← optional (quotesBefore quote fence)
    return first.flatten ++ more.flatten ++ last.getD []
  commit fence
  return String.ofList body

def stringValue : Rule String :=
  either (linesString '"' basicLinesPart)
    (either basicString (either (linesString '\'' literalLinesPart) literalString))

end FsmFabric.Toml
