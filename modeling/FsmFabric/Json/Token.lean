/-!
# The words of JSON

Blanks, string literals and numerals, each read off the front of the characters that are still to be
read. The grammar is the standard one: four kinds of blanks, no leading zeros, no raw control
characters in strings. A string that is read has surrogate escapes only in pairs; in one that is
skipped they may stand alone, since nobody asks for its characters.
-/

namespace FsmFabric.Json

abbrev Input := List Char

def isBlank (c : Char) : Bool := c == ' ' || c == '\t' || c == '\n' || c == '\r'

def skipBlanks (input : Input) : Input := input.dropWhile isBlank

/-! ## String literals -/

def hexValue? (c : Char) : Option Nat :=
  if '0' ≤ c ∧ c ≤ '9' then some (c.toNat - '0'.toNat)
  else if 'a' ≤ c ∧ c ≤ 'f' then some (c.toNat - 'a'.toNat + 10)
  else if 'A' ≤ c ∧ c ≤ 'F' then some (c.toNat - 'A'.toNat + 10)
  else none

def hexFour? (a b c d : Char) : Option Nat := do
  return ((← hexValue? a) * 16 + (← hexValue? b)) * 256 + (← hexValue? c) * 16 + (← hexValue? d)

def shortEscape? : Char → Option Char
  | '"' => some '"'
  | '\\' => some '\\'
  | '/' => some '/'
  | 'b' => some '\x08'
  | 'f' => some '\x0c'
  | 'n' => some '\n'
  | 'r' => some '\r'
  | 't' => some '\t'
  | _ => none

/-- Whether a character may not stand in a string literal as it is. -/
def needsEscape (c : Char) : Bool := c.toNat < 32 || c == '\\'

/-- The text of a string literal whose opening quote has been read, behind the characters found
before, which are in reverse order. -/
def stringBody? (found : List Char) : Input → Option (String × Input)
  | [] => none
  | '"' :: rest => some (String.ofList found.reverse, rest)
  | '\\' :: 'u' :: a :: b :: c :: d :: rest => do
    let unit ← hexFour? a b c d
    if unit < 0xD800 ∨ 0xE000 ≤ unit then stringBody? (Char.ofNat unit :: found) rest
    else if unit < 0xDC00 then
      match rest with
      | '\\' :: 'u' :: a :: b :: c :: d :: rest =>
        let low ← hexFour? a b c d
        if 0xDC00 ≤ low ∧ low < 0xE000 then
          let both := 0x10000 + (unit - 0xD800) * 0x400 + (low - 0xDC00)
          stringBody? (Char.ofNat both :: found) rest
        else none
      | _ => none
    else none
  | '\\' :: c :: rest => do stringBody? ((← shortEscape? c) :: found) rest
  | c :: rest => if needsEscape c then none else stringBody? (c :: found) rest

/-- What follows a string literal whose opening quote has been read. -/
def skipString? : Input → Option Input
  | [] => none
  | '"' :: rest => some rest
  | '\\' :: 'u' :: a :: b :: c :: d :: rest =>
    if (hexFour? a b c d).isSome then skipString? rest else none
  | '\\' :: c :: rest => if (shortEscape? c).isSome then skipString? rest else none
  | c :: rest => if needsEscape c then none else skipString? rest

/-! ## Numerals -/

/-- An exponent as it is written. -/
structure Exponent where
  /-- The letter in front. -/
  mark : Char
  sign : Option Char
  digits : List Char
deriving DecidableEq, Repr

/-- A number as it is written. -/
structure Numeral where
  negative : Bool
  /-- The digits before the point. -/
  whole : List Char
  /-- The digits behind the point, if there is one. -/
  fraction : Option (List Char)
  exponent : Option Exponent
deriving DecidableEq, Repr

namespace Numeral

def text (n : Numeral) : List Char :=
  (if n.negative then ['-'] else []) ++ n.whole ++ n.fraction.elim [] ('.' :: ·) ++
    n.exponent.elim [] fun e => e.mark :: e.sign.toList ++ e.digits

def isDigit (c : Char) : Bool := '0' ≤ c && c ≤ '9'

def digitValue (c : Char) : Nat := c.toNat - '0'.toNat

def decimal (digits : List Char) : Nat := digits.foldl (fun n d => 10 * n + digitValue d) 0

/-- The digits at the front, at least one. -/
def digits? (input : Input) : Option (List Char × Input) :=
  match input.takeWhile isDigit with
  | [] => none
  | ds => some (ds, input.dropWhile isDigit)

/-- Digits that do not begin with a zero, unless that is all. -/
def whole? : Input → Option (List Char × Input)
  | '0' :: rest => some (['0'], rest)
  | input => digits? input

/-- A point and at least one digit, or nothing. -/
def fraction? : Input → Option (Option (List Char) × Input)
  | '.' :: rest => do
    let (digits, rest) ← digits? rest
    return (some digits, rest)
  | input => some (none, input)

/-- An exponent mark, a sign if wanted and at least one digit, or nothing. -/
def exponent? : Input → Option (Option Exponent × Input)
  | mark :: rest =>
    if mark == 'e' || mark == 'E' then do
      let (sign, rest) :=
        match rest with
        | '+' :: rest => (some '+', rest)
        | '-' :: rest => (some '-', rest)
        | rest => (none, rest)
      let (digits, rest) ← digits? rest
      return (some { mark, sign, digits }, rest)
    else some (none, mark :: rest)
  | [] => some (none, [])

/-- A number at the front of the input. -/
def read? (input : Input) : Option (Numeral × Input) := do
  let (negative, rest) :=
    match input with
    | '-' :: rest => (true, rest)
    | rest => (false, rest)
  let (whole, rest) ← whole? rest
  let (fraction, rest) ← fraction? rest
  let (exponent, rest) ← exponent? rest
  return ({ negative, whole, fraction, exponent }, rest)

end Numeral

end FsmFabric.Json
