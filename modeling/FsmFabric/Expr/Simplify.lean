import FsmFabric.Expr.Basic

/-!
# Constant conditions and simplification

`decide?` finds the value of a condition that does not depend on the inputs, as far as literals and
constants show it. `simplify` uses it to drop operands that do not matter, to undo double negation,
and to replace a comparison with a known condition by the other side or its negation. It is one
pass from the outside in, not a normal form.
-/

namespace FsmFabric.Expr

/-- The value of a condition that is known without its inputs. -/
def decide? : Expr → Option Bool
  | literal value => some value
  | logicNot e => e.decide?.map (! ·)
  | logic op l r =>
    let a := l.decide?
    let b := r.decide?
    if a = some (!op.unit) ∨ b = some (!op.unit) then some (!op.unit)
    else if a = some op.unit ∧ b = some op.unit then some op.unit
    else none
  | reduce op (constant mask) => some (op.apply mask)
  | reduce .or e => if e.isLogic then e.decide? else none
  | _ => none

/-- Which side of a comparison of two conditions remains when the other one is known, and whether
it is to be negated. -/
def comparison? (negated : Bool) (l r : Expr) : Option (Expr × Bool) :=
  if l.isLogic && r.isLogic then
    match l.decide?, r.decide? with
    | some value, _ => some (r, value == negated)
    | none, some value => some (l, value == negated)
    | none, none => none
  else none

/-- The simplified expression, in at most `fuel` nested steps. -/
def simplifyWithin : Nat → Expr → Expr
  | 0, e => e
  | fuel + 1, e =>
    match e with
    | inputs positions => inputs positions
    | constant mask => constant mask
    | not e => not (simplifyWithin fuel e)
    | bitwise op l r => bitwise op (simplifyWithin fuel l) (simplifyWithin fuel r)
    | compare negated l r =>
      match comparison? negated l r with
      | some (rest, false) => simplifyWithin fuel rest
      | some (rest, true) => simplifyWithin fuel (logicNot (simplifyWithin fuel rest))
      | none => compare negated (simplifyWithin fuel l) (simplifyWithin fuel r)
    | reduce .or e =>
      if e.isLogic then simplifyWithin fuel e else reduce .or (simplifyWithin fuel e)
    | reduce op e => reduce op (simplifyWithin fuel e)
    | logicNot (logicNot e) => simplifyWithin fuel e
    | logicNot e => logicNot (simplifyWithin fuel e)
    | logic op l r =>
      if l.decide? = some op.unit then simplifyWithin fuel r
      else if r.decide? = some op.unit then simplifyWithin fuel l
      else logic op (simplifyWithin fuel l) (simplifyWithin fuel r)
    | literal value => literal value

/-- The simplified expression. Every step works on an expression with fewer nodes, so as many
nested steps as there are nodes are enough. -/
def simplify (e : Expr) : Expr := simplifyWithin e.nodes e

end FsmFabric.Expr
