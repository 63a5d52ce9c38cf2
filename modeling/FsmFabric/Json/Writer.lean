import FsmFabric.Json.Value

/-!
# Writing JSON

The text has no blanks. Strings escape quotes, backslashes and control characters only. Every part is
written behind the text so far.
-/

namespace FsmFabric.Json

def escape (c : Char) : List Char :=
  if c == '"' then ['\\', '"']
  else if c == '\\' then ['\\', '\\']
  else if c == '\n' then ['\\', 'n']
  else if c == '\r' then ['\\', 'r']
  else if c == '\t' then ['\\', 't']
  else if c == '\x08' then ['\\', 'b']
  else if c == '\x0c' then ['\\', 'f']
  else if c.toNat < 32 then
    ['\\', 'u', '0', '0', Nat.digitChar (c.toNat / 16), Nat.digitChar (c.toNat % 16)]
  else [c]

def quote (s : String) : String :=
  "\"" ++ String.ofList (s.toList.flatMap escape) ++ "\""

mutual

/-- A text with a value behind it. -/
def renderAfter (text : String) : Json → String
  | null => text ++ "null"
  | bool true => text ++ "true"
  | bool false => text ++ "false"
  | nat value => text ++ toString value
  | number written => text ++ written
  | string value => text ++ quote value
  | array [] => text ++ "[]"
  | array (item :: rest) => renderItems (renderAfter (text ++ "[") item) rest
  | object [] => text ++ "\x7b\x7d"
  | object ((name, value) :: rest) =>
    renderMembers (renderAfter (text ++ "\x7b" ++ quote name ++ ":") value) rest

/-- A text with the items of an array behind it, of which there is one already, and the end of the
array. -/
def renderItems (text : String) : List Json → String
  | [] => text ++ "]"
  | item :: rest => renderItems (renderAfter (text ++ ",") item) rest

/-- A text with the members of an object behind it, of which there is one already, and the end of the
object. -/
def renderMembers (text : String) : List (String × Json) → String
  | [] => text ++ "\x7d"
  | (name, value) :: rest =>
    renderMembers (renderAfter (text ++ "," ++ quote name ++ ":") value) rest

end

def render (j : Json) : String := renderAfter "" j

end FsmFabric.Json
