import FsmFabric.Diagram.Basic
import FsmFabric.Proofs.Expr.Simplify

/-!
# Walking a diagram

Where a diagram leads, for a state and inputs. Simplifying its conditions does not change that, if
they combine only truth values with logical operators.
-/

namespace FsmFabric

def Test.Meets (p : Expr → Prop) : Test → Prop
  | .state _ => True
  | condition expr => p expr

theorem Test.Meets.simplify {p : Expr → Prop} (closed : ∀ e, p e → p e.simplify) {test : Test}
    (meets : test.Meets p) : test.simplify.Meets p := by
  cases test with
  | state => trivial
  | condition expr => exact closed expr meets

theorem Test.holds_simplify {test : Test} (coerced : test.Meets (·.isCoerced)) (state : Nat)
    (x : Nat → Bool) : test.simplify.holds state x = test.holds state x := by
  cases test with
  | state => rfl
  | condition expr => exact (Expr.simplify_standsFor coerced).holds x

namespace Diagram

def Meets (p : Expr → Prop) : Diagram → Prop
  | leaf .. => True
  | branch test yes no => test.Meets p ∧ yes.Meets p ∧ no.Meets p

def mapLeaves (change : Mask × Option Nat → Mask × Option Nat) : Diagram → Diagram
  | leaf output target => leaf (change (output, target)).1 (change (output, target)).2
  | branch test yes no => branch test (yes.mapLeaves change) (no.mapLeaves change)

theorem Meets.simplify {p : Expr → Prop} (closed : ∀ e, p e → p e.simplify) {d : Diagram}
    (meets : d.Meets p) : d.simplify.Meets p := by
  induction d with
  | leaf => trivial
  | branch test yes no ihy ihn =>
    exact ⟨meets.1.simplify closed, ihy meets.2.1, ihn meets.2.2⟩

theorem Meets.mapLeaves {p : Expr → Prop} {d : Diagram} (meets : d.Meets p)
    (change : Mask × Option Nat → Mask × Option Nat) : (d.mapLeaves change).Meets p := by
  induction d with
  | leaf => trivial
  | branch test yes no ihy ihn => exact ⟨meets.1, ihy meets.2.1, ihn meets.2.2⟩

theorem walk_simplify {d : Diagram} (coerced : d.Meets (·.isCoerced)) (state : Nat)
    (x : Nat → Bool) : d.simplify.walk state x = d.walk state x := by
  induction d with
  | leaf => rfl
  | branch test yes no ihy ihn =>
    simp only [simplify, walk, Test.holds_simplify coerced.1, ihy coerced.2.1, ihn coerced.2.2]

theorem walk_mapLeaves (d : Diagram) (change : Mask × Option Nat → Mask × Option Nat)
    (state : Nat) (x : Nat → Bool) :
    (d.mapLeaves change).walk state x = change (d.walk state x) := by
  induction d with
  | leaf => rfl
  | branch test yes no ihy ihn =>
    simp only [mapLeaves, walk, ihy, ihn]
    split <;> rfl

theorem sameLeaves_comm (a b : Diagram) : a.sameLeaves b = b.sameLeaves a := by
  induction a generalizing b with
  | leaf output target =>
    cases b with
    | leaf output' target' =>
      simp only [sameLeaves, Mask.equals, BEq.comm (a := target), BEq.comm (a := output.ones)]
    | branch => rfl
  | branch test yes no ihy ihn =>
    cases b with
    | leaf => rfl
    | branch test' yes' no' => simp only [sameLeaves, ihy, ihn]

end Diagram

end FsmFabric
