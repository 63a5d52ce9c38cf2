/-!
# JSON values

Objects keep their members in order, repeated names included. A natural number written as plain
digits is kept as a number; any other number is kept as it is written.
-/

namespace FsmFabric

inductive Json where
  | null
  | bool (value : Bool)
  /-- A number written without sign, fraction and exponent. -/
  | nat (value : Nat)
  /-- Any other number, as written. -/
  | number (text : String)
  | string (value : String)
  | array (items : List Json)
  | object (members : List (String × Json))
deriving Repr, Inhabited

namespace Json

def get? (j : Json) (name : String) : Option Json :=
  match j with
  | object members => members.lookup name
  | _ => none

end Json

end FsmFabric
