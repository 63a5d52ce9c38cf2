import FsmFabric.Expr.Basic
import FsmFabric.Mask.Codec

/-!
# Expressions in JSON

An expression is an object with one member, named for its operator, that holds the operand or the
array of the two operands; the literals are strings.
-/

namespace FsmFabric

def BitOp.tag : BitOp → String
  | and => "and"
  | or => "or"
  | xor => "xor"
  | xnor => "xnor"

def Reduction.tag : Reduction → String
  | or => "reduce_or"
  | and => "reduce_and"
  | xor => "reduce_xor"

def Connective.tag : Connective → String
  | and => "logic_and"
  | or => "logic_or"

namespace Expr

def toJson : Expr → Json
  | inputs positions => .object [("identifier", .array (positions.map .nat))]
  | constant mask => .object [("constant", mask.toJson)]
  | not e => .object [("not", e.toJson)]
  | bitwise op l r => .object [(op.tag, .array [l.toJson, r.toJson])]
  | compare false l r => .object [("equality", .array [l.toJson, r.toJson])]
  | compare true l r => .object [("not_equal", .array [l.toJson, r.toJson])]
  | reduce op e => .object [(op.tag, e.toJson)]
  | logicNot e => .object [("logic_not", e.toJson)]
  | logic op l r => .object [(op.tag, .array [l.toJson, r.toJson])]
  | literal true => .string "true"
  | literal false => .string "false"

def unary? : String → Option (Expr → Expr)
  | "not" => some not
  | "reduce_or" => some (reduce .or)
  | "reduce_and" => some (reduce .and)
  | "reduce_xor" => some (reduce .xor)
  | "logic_not" => some logicNot
  | _ => none

def binary? : String → Option (Expr → Expr → Expr)
  | "and" => some (bitwise .and)
  | "or" => some (bitwise .or)
  | "xor" => some (bitwise .xor)
  | "xnor" => some (bitwise .xnor)
  | "equality" => some (compare false)
  | "not_equal" => some (compare true)
  | "logic_and" => some (logic .and)
  | "logic_or" => some (logic .or)
  | _ => none

def literal? : String → Option Expr
  | "true" => some (literal true)
  | "false" => some (literal false)
  | _ => none

/-- Decodes an expression. A literal may also be an object with that one member, whose value
`unit` accepts. Two operands are decoded before their number is checked. -/
def ofJson (unit : Json → Bool) : Decoder Expr
  | .string tag => (literal? tag).elim (.error .mismatch) .ok
  | .object [("identifier", value)] => do return inputs (← Decode.list Decode.index value)
  | .object [("constant", value)] => do return constant (← Mask.ofJson value)
  | .object [(tag, .array (l :: r :: extra))] =>
    match binary? tag with
    | some op => do
      let left ← ofJson unit l
      let right ← ofJson unit r
      if extra.isEmpty then return op left right else .error .mismatch
    | none => .error .mismatch
  | .object [(tag, .array [l])] =>
    match binary? tag with
    | some _ => do
      let _ ← ofJson unit l
      .error .mismatch
    | none => .error .mismatch
  | .object [(tag, value)] =>
    match unary? tag, literal? tag with
    | some op, _ => do return op (← ofJson unit value)
    | none, some e => if unit value then .ok e else .error .mismatch
    | none, none => .error .mismatch
  | _ => .error .mismatch

end Expr

end FsmFabric
