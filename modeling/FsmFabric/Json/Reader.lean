import FsmFabric.Json.Magnitude
import FsmFabric.Json.Skip
import FsmFabric.Json.Value

/-!
# Reading JSON

The reader works on the list of characters that are still to be read; its recursion is bounded by
twice their number. A value must not be nested too deeply. Of a record only the members that are
asked for are read; the others are skipped.
-/

namespace FsmFabric.Json

namespace Reader

def number? (input : Input) : Option (Json × Input) := do
  let (n, rest) ← Numeral.read? input
  if n.inRange then
    return (if n.negative || n.fraction.isSome || n.exponent.isSome then number (String.ofList n.text)
      else nat (Numeral.decimal n.whole), rest)
  else none

/-- The name of a member and its colon. -/
def name? (input : Input) : Option (String × Input) :=
  match skipBlanks input with
  | '"' :: rest => do
    let (name, rest) ← stringBody? [] rest
    match skipBlanks rest with
    | ':' :: rest => some (name, rest)
    | _ => none
  | _ => none

mutual

/-- A value at the front of the input in which at most `depth` brackets are open at once. -/
def value? : Nat → Nat → Input → Option (Json × Input)
  | 0, _, _ => none
  | fuel + 1, depth, input =>
    match skipBlanks input, depth with
    | 'n' :: 'u' :: 'l' :: 'l' :: rest, _ => some (null, rest)
    | 't' :: 'r' :: 'u' :: 'e' :: rest, _ => some (bool true, rest)
    | 'f' :: 'a' :: 'l' :: 's' :: 'e' :: rest, _ => some (bool false, rest)
    | '"' :: rest, _ => do
      let (text, rest) ← stringBody? [] rest
      return (string text, rest)
    | '[' :: rest, depth + 1 =>
      match skipBlanks rest with
      | ']' :: rest => some (array [], rest)
      | rest => items? fuel depth [] rest
    | '\x7b' :: rest, depth + 1 =>
      match skipBlanks rest with
      | '\x7d' :: rest => some (object [], rest)
      | rest => members? fuel depth [] rest
    | rest, _ => number? rest

/-- The rest of an array that has at least one more item, behind the items found before, which are in
reverse order. -/
def items? : Nat → Nat → List Json → Input → Option (Json × Input)
  | 0, _, _, _ => none
  | fuel + 1, depth, found, input => do
    let (item, rest) ← value? fuel depth input
    match skipBlanks rest with
    | ',' :: rest => items? fuel depth (item :: found) rest
    | ']' :: rest => return (array (item :: found).reverse, rest)
    | _ => none

/-- The rest of an object that has at least one more member, behind the members found before, which
are in reverse order. -/
def members? : Nat → Nat → List (String × Json) → Input → Option (Json × Input)
  | 0, _, _, _ => none
  | fuel + 1, depth, found, input => do
    let (name, rest) ← name? input
    let (value, rest) ← value? fuel depth rest
    match skipBlanks rest with
    | ',' :: rest => members? fuel depth ((name, value) :: found) rest
    | '\x7d' :: rest => return (object ((name, value) :: found).reverse, rest)
    | _ => none

end

/-- The rest of a record that has at least one more member. Only the members with one of the names are
kept, behind those found before, which are in reverse order. -/
def fields? (names : List String) :
    Nat → Nat → List (String × Json) → Input → Option (Json × Input)
  | 0, _, _, _ => none
  | fuel + 1, depth, found, input => do
    let (name, rest) ← name? input
    let (found, rest) ←
      if names.contains name then do
        let (value, rest) ← value? fuel depth rest
        some ((name, value) :: found, rest)
      else do some (found, ← Skip.value? fuel rest)
    match skipBlanks rest with
    | ',' :: rest => fields? names fuel depth found rest
    | '\x7d' :: rest => return (object found.reverse, rest)
    | _ => none

/-- The bound on the recursion of the reader. -/
def fuelFor (input : Input) : Nat := 2 * input.length + 2

end Reader

/-- The most brackets that may be open at once in a record. -/
def maxDepth : Nat := 127

/-- A record at the front of a text, and what follows it: an object without the members that are not
named, or any other value. -/
def recordAt? (names : List String) (input : Input) : Option (Json × Input) :=
  let fuel := Reader.fuelFor input
  match skipBlanks input with
  | '\x7b' :: rest =>
    match skipBlanks rest with
    | '\x7d' :: rest => some (object [], rest)
    | rest => Reader.fields? names fuel (maxDepth - 1) [] rest
  | rest => Reader.value? fuel maxDepth rest

def onlyBlanks (rest : Input) : Bool := (skipBlanks rest).isEmpty

/-- The value that a text writes, nested to any depth. -/
def read? (text : String) : Option Json := do
  let input := text.toList
  let (value, rest) ← Reader.value? (Reader.fuelFor input) input.length input
  if onlyBlanks rest then some value else none

end FsmFabric.Json
