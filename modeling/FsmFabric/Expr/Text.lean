import FsmFabric.Expr.Basic

/-!
# Expressions as text
-/

namespace FsmFabric

def BitOp.symbol : BitOp → String
  | and => "&"
  | or => "|"
  | xor => "^"
  | xnor => "~^"

def Reduction.symbol : Reduction → String
  | or => "|"
  | and => "&"
  | xor => "^"

def Connective.symbol : Connective → String
  | and => "&&"
  | or => "||"

/-- Operators stand between their operands, and every binary one in parentheses. -/
def Expr.text : Expr → String
  | inputs positions => Group.textOf positions
  | constant mask => mask.text
  | not e => "~" ++ e.text
  | bitwise op l r => infixed op.symbol l.text r.text
  | compare negated l r => infixed (if negated then "!=" else "==") l.text r.text
  | reduce op e => op.symbol ++ e.text
  | logicNot e => "!" ++ e.text
  | logic op l r => infixed op.symbol l.text r.text
  | literal value => if value then "true" else "false"
where
  infixed (symbol left right : String) : String :=
    "(" ++ left ++ " " ++ symbol ++ " " ++ right ++ ")"

end FsmFabric
