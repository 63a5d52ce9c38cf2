/-!
# The log of a compilation
-/

namespace FsmFabric

inductive Level where
  | debug | info | warn
deriving DecidableEq, Repr

def Level.text : Level → String
  | debug => "DEBUG"
  | info => "INFO"
  | warn => "WARN"

structure LogLine where
  level : Level
  message : String
deriving DecidableEq, Repr

/-- The messages so far, the newest first. -/
abbrev Log := List LogLine

def twoPlaces (n : Nat) : String := if n < 10 then " " ++ toString n else toString n

end FsmFabric
