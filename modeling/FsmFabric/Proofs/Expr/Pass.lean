import FsmFabric.Proofs.Expr.Simplify

/-!
# Simplification without its bound

The pass never grows an expression, so every nested step works on fewer nodes than the one around
it, also where it simplifies a negation that it has just made. As many steps as there are nodes are
therefore enough, and `simplify` satisfies the equations of the rules it applies.
-/

namespace FsmFabric.Expr

/-! ## Enough steps -/

theorem nodes_pos (e : Expr) : 0 < e.nodes := by
  cases e <;> exact Nat.succ_pos _

/-- What remains of a comparison leaves room for a negation. -/
theorem nodes_of_comparison? {negated invert : Bool} {l r rest : Expr}
    (found : comparison? negated l r = some (rest, invert)) :
    rest.nodes + 1 ≤ l.nodes + r.nodes := by
  have left := l.nodes_pos
  have right := r.nodes_pos
  rcases (isLogic_of_comparison? found).2 with rfl | rfl <;> omega

theorem nodes_simplifyWithin_le (fuel : Nat) (e : Expr) :
    (simplifyWithin fuel e).nodes ≤ e.nodes := by
  induction fuel generalizing e with
  | zero => exact le_rfl
  | succ fuel ih =>
    cases e with
    | inputs | constant | literal => exact le_rfl
    | not e => exact Nat.succ_le_succ (ih e)
    | bitwise op l r => exact Nat.succ_le_succ (Nat.add_le_add (ih l) (ih r))
    | compare negated l r =>
      simp only [simplifyWithin]
      split
      · next rest found =>
        have smaller := nodes_of_comparison? found
        exact (ih rest).trans (by simp only [nodes]; omega)
      · next rest found =>
        have smaller := nodes_of_comparison? found
        have kept := ih rest
        refine (ih _).trans ?_
        simp only [nodes]
        omega
      · exact Nat.succ_le_succ (Nat.add_le_add (ih l) (ih r))
    | reduce op e =>
      cases op with
      | and | xor => exact Nat.succ_le_succ (ih e)
      | or =>
        simp only [simplifyWithin]
        split
        · exact (ih e).trans (Nat.le_succ _)
        · exact Nat.succ_le_succ (ih e)
    | logicNot e =>
      cases e with
      | logicNot e => exact (ih e).trans (Nat.le_add_right _ 2)
      | _ => exact Nat.succ_le_succ (ih _)
    | logic op l r =>
      simp only [simplifyWithin]
      split
      · exact (ih r).trans (by simp only [nodes]; omega)
      · split
        · exact (ih l).trans (by simp only [nodes]; omega)
        · exact Nat.succ_le_succ (Nat.add_le_add (ih l) (ih r))

/-- Steps beyond the number of nodes make no difference. -/
theorem simplifyWithin_congr {fuel fuel' : Nat} {e : Expr} (enough : e.nodes ≤ fuel)
    (enough' : e.nodes ≤ fuel') : simplifyWithin fuel e = simplifyWithin fuel' e := by
  induction fuel generalizing e fuel' with
  | zero => exact absurd e.nodes_pos (by omega)
  | succ fuel ih =>
    cases fuel' with
    | zero => exact absurd e.nodes_pos (by omega)
    | succ fuel' =>
      have same {s : Expr} (smaller : s.nodes < e.nodes) :
          simplifyWithin fuel s = simplifyWithin fuel' s := ih (by omega) (by omega)
      cases e with
      | inputs | constant | literal => rfl
      | not e => simp only [simplifyWithin, same (s := e) (Nat.lt_succ_self _)]
      | bitwise op l r =>
        simp only [simplifyWithin, same (s := l) (by simp only [nodes]; omega),
          same (s := r) (by simp only [nodes]; omega)]
      | compare negated l r =>
        simp only [simplifyWithin]
        split
        · next rest found =>
          have smaller := nodes_of_comparison? found
          exact same (by simp only [nodes]; omega)
        · next rest found =>
          have smaller := nodes_of_comparison? found
          have kept := nodes_simplifyWithin_le fuel' rest
          rw [same (s := rest) (by simp only [nodes]; omega)]
          exact same (by simp only [nodes]; omega)
        · rw [same (s := l) (by simp only [nodes]; omega),
            same (s := r) (by simp only [nodes]; omega)]
      | reduce op e =>
        have inner := same (s := e) (Nat.lt_succ_self _)
        cases op with
        | and | xor | or => simp only [simplifyWithin, inner]
      | logicNot e =>
        cases e with
        | logicNot e => exact same (s := e) (by simp only [nodes]; omega)
        | _ => exact congrArg logicNot (same (Nat.lt_succ_self _))
      | logic op l r =>
        simp only [simplifyWithin, same (s := l) (by simp only [nodes]; omega),
          same (s := r) (by simp only [nodes]; omega)]

theorem simplifyWithin_of_le {fuel : Nat} {e : Expr} (enough : e.nodes ≤ fuel) :
    simplifyWithin fuel e = e.simplify :=
  simplifyWithin_congr enough le_rfl

theorem nodes_simplify_le (e : Expr) : e.simplify.nodes ≤ e.nodes :=
  nodes_simplifyWithin_le e.nodes e

/-! ## The rules -/

theorem simplify_not (e : Expr) : (not e).simplify = not e.simplify := rfl

theorem simplify_bitwise (op : BitOp) (l r : Expr) :
    (bitwise op l r).simplify = bitwise op l.simplify r.simplify := by
  rw [← simplifyWithin_of_le (Nat.le_add_right l.nodes r.nodes),
    ← simplifyWithin_of_le (Nat.le_add_left r.nodes l.nodes)]
  rfl

theorem simplify_compare_of_none {negated : Bool} {l r : Expr}
    (unknown : comparison? negated l r = none) :
    (compare negated l r).simplify = compare negated l.simplify r.simplify := by
  show simplifyWithin (l.nodes + r.nodes + 1) _ = _
  simp only [simplifyWithin, unknown]
  rw [simplifyWithin_of_le (Nat.le_add_right l.nodes r.nodes),
    simplifyWithin_of_le (Nat.le_add_left r.nodes l.nodes)]

theorem simplify_compare_of_some {negated invert : Bool} {l r rest : Expr}
    (found : comparison? negated l r = some (rest, invert)) :
    (compare negated l r).simplify =
      if invert then (logicNot rest.simplify).simplify else rest.simplify := by
  have smaller := nodes_of_comparison? found
  have within : simplifyWithin (l.nodes + r.nodes) rest = rest.simplify :=
    simplifyWithin_of_le (by omega)
  show simplifyWithin (l.nodes + r.nodes + 1) _ = _
  cases invert with
  | false => simp only [simplifyWithin, found, within, Bool.false_eq_true, if_false]
  | true =>
    simp only [simplifyWithin, found, within, if_true]
    have kept := rest.nodes_simplify_le
    apply simplifyWithin_of_le
    simp only [nodes]
    omega

theorem simplify_reduce (op : Reduction) (e : Expr) :
    (reduce op e).simplify =
      if op = .or ∧ e.isLogic = true then e.simplify else reduce op e.simplify := by
  cases op with
  | and | xor => rfl
  | or =>
    show simplifyWithin (e.nodes + 1) _ = _
    simp only [simplifyWithin, true_and]
    rfl

theorem simplify_logicNot_logicNot (e : Expr) : (logicNot (logicNot e)).simplify = e.simplify :=
  simplifyWithin_of_le (Nat.le_succ e.nodes)

theorem simplify_logicNot {e : Expr} (single : ∀ inner, e ≠ logicNot inner) :
    (logicNot e).simplify = logicNot e.simplify := by
  cases e with
  | logicNot inner => exact absurd rfl (single inner)
  | _ => rfl

theorem simplify_logic (op : Connective) (l r : Expr) :
    (logic op l r).simplify =
      if l.decide? = some op.unit then r.simplify
      else if r.decide? = some op.unit then l.simplify
      else logic op l.simplify r.simplify := by
  rw [← simplifyWithin_of_le (Nat.le_add_right l.nodes r.nodes),
    ← simplifyWithin_of_le (Nat.le_add_left r.nodes l.nodes)]
  rfl

end FsmFabric.Expr
