import FsmFabric.Json.Token

/-!
# Skipping values

A value that nobody asks for is only checked for the grammar: its strings need not make sense, its
numbers may be of any size, and it may be nested to any depth. The brackets that are open are kept in
a list, so that a deep value needs no deep recursion.
-/

namespace FsmFabric.Json.Skip

inductive Bracket where
  | square
  | curly
deriving DecidableEq, Repr

/-- What has to come next inside the open brackets. -/
inductive Expected where
  | value
  /-- A value, or the end of an array that has just begun. -/
  | item
  /-- The name of a member. -/
  | name
  /-- The name of a member, or the end of an object that has just begun. -/
  | member
  /-- A comma, or the end of the innermost array or object. -/
  | comma
deriving DecidableEq, Repr

/-- What follows a value without brackets. -/
def scalar? : Input → Option Input
  | 'n' :: 'u' :: 'l' :: 'l' :: rest => some rest
  | 't' :: 'r' :: 'u' :: 'e' :: rest => some rest
  | 'f' :: 'a' :: 'l' :: 's' :: 'e' :: rest => some rest
  | '"' :: rest => skipString? rest
  | input => (Numeral.read? input).map (·.2)

/-- What follows the name of a member and its colon. -/
def name? : Input → Option Input
  | '"' :: rest => do
    match skipBlanks (← skipString? rest) with
    | ':' :: rest => some rest
    | _ => none
  | _ => none

/-- What follows the value that the open brackets belong to. Every step takes at least one
character. -/
def finish? : Nat → List Bracket → Expected → Input → Option Input
  | _, [], .comma, input => some input
  | 0, _, _, _ => none
  | fuel + 1, opened, expected, input =>
    match expected, opened, skipBlanks input with
    | .item, .square :: outer, ']' :: rest | .comma, .square :: outer, ']' :: rest
    | .member, .curly :: outer, '\x7d' :: rest | .comma, .curly :: outer, '\x7d' :: rest =>
      finish? fuel outer .comma rest
    | .comma, .square :: _, ',' :: rest => finish? fuel opened .value rest
    | .comma, .curly :: _, ',' :: rest => finish? fuel opened .name rest
    | .comma, _, _ => none
    | .name, _, rest | .member, _, rest => do finish? fuel opened .value (← name? rest)
    | .value, _, '[' :: rest | .item, _, '[' :: rest => finish? fuel (.square :: opened) .item rest
    | .value, _, '\x7b' :: rest | .item, _, '\x7b' :: rest =>
      finish? fuel (.curly :: opened) .member rest
    | .value, _, rest | .item, _, rest => do finish? fuel opened .comma (← scalar? rest)

/-- What follows the value at the front of an input of at most `fuel` characters. -/
def value? (fuel : Nat) (input : Input) : Option Input := finish? fuel [] .value input

end FsmFabric.Json.Skip
