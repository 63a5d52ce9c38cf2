import FsmFabric.Proofs.Expr.Derivation
import FsmFabric.Proofs.Expr.Support

/-!
# What the value of an expression depends on

The value of an expression has a width that is fixed by the expression, and its bits depend on no
input outside of the support. A condition that `decide?` knows depends on no input at all, and it is
still known after it was simplified: the operands that the pass drops had no say in its value, and
those that it keeps are known as before.
-/

namespace FsmFabric.Expr

/-! ## Inputs -/

theorem eval_congr_of_support {e : Expr} {support : Mask} (found : e.support = .ok support)
    {x y : Nat → Bool} (same : ∀ i, support.get i = true → x i = y i) : e.eval x = e.eval y := by
  apply eval_congr
  intro i read
  exact same i ((get_support found i).2 read)

/-- Masks that agree on the support give the same value, in all bits and in its size, which is the
width of the expression for all inputs. The support exists unless some input that is read has no
successor in range. Also then, inputs that agree where they are read give the same value. -/
theorem eval_depends_on_support (e : Expr) :
    (∀ support, e.support = .ok support → ∀ m n : Mask,
      (∀ i, support.get i = true → m.get i = n.get i) →
        e.eval m.get = e.eval n.get ∧ e.holds m.get = e.holds n.get) ∧
    ((∃ support, e.support = .ok support) ↔ ∀ i ∈ e.reads, i + 1 < Checked.limit) ∧
    (∀ x y : Nat → Bool, (∀ i ∈ e.reads, x i = y i) →
      e.eval x = e.eval y ∧ e.holds x = e.holds y) ∧
    ∀ x, (e.eval x).size = e.width := by
  refine ⟨fun support found m n same => ?_, exists_support_iff, fun x y same => ?_, e.size_eval⟩
  · have value := eval_congr_of_support found same
    exact ⟨value, congrArg Mask.any value⟩
  · exact ⟨eval_congr same, holds_congr same⟩

/-- Two inputs, the higher one first, against a constant of four bits. -/
def tapped : Expr := bitwise .xnor (inputs [3, 0]) (constant (Mask.ofNat 5 4))

/-- The masks have different sizes and differ in bits 1 and 8, which `tapped` does not read. -/
theorem eval_depends_on_support_tapped :
    tapped.support = .ok (Mask.ofOnes 4 [0, 3]) ∧
      tapped.eval (Mask.ofOnes 4 [3]).get = tapped.eval (Mask.ofOnes 9 [1, 3, 8]).get ∧
      tapped.holds (Mask.ofOnes 4 [3]).get = tapped.holds (Mask.ofOnes 9 [1, 3, 8]).get ∧
      (tapped.eval (Mask.ofOnes 4 [3]).get).size = 4 := by
  have found : tapped.support = .ok (Mask.ofOnes 4 [0, 3]) := by decide +kernel
  obtain ⟨agree, -, -, size⟩ := eval_depends_on_support tapped
  obtain ⟨value, truth⟩ := agree _ found (Mask.ofOnes 4 [3]) (Mask.ofOnes 9 [1, 3, 8]) (by
    intro i set
    have read : i = 0 ∨ i = 3 := by simpa [Mask.get_ofOnes] using set
    rcases read with rfl | rfl <;> decide +kernel)
  exact ⟨found, value, truth, size _⟩

/-! ## Known conditions -/

theorem decide?_reduce (op : Reduction) {e : Expr} (other : ∀ mask, e ≠ constant mask) :
    (reduce op e).decide? = if op = .or ∧ e.isLogic = true then e.decide? else none := by
  cases e with
  | constant mask => exact absurd rfl (other mask)
  | inputs | not | bitwise | compare | reduce | logicNot | logic | literal =>
    cases op <;> simp [decide?, isLogic]

section Logic

variable {op : Connective} {l r : Expr}

theorem decide?_logic_of_zero (zero : l.decide? = some (!op.unit) ∨ r.decide? = some (!op.unit)) :
    (logic op l r).decide? = some (!op.unit) := by
  simp only [decide?, if_pos zero]

theorem decide?_logic_of_unit_left (unit : l.decide? = some op.unit) :
    (logic op l r).decide? = r.decide? := by
  cases op <;> cases known : r.decide? with
  | none => simp [decide?, unit, known, Connective.unit]
  | some value => cases value <;> simp [decide?, unit, known, Connective.unit]

theorem decide?_logic_of_unit_right (unit : r.decide? = some op.unit) :
    (logic op l r).decide? = l.decide? := by
  cases op <;> cases known : l.decide? with
  | none => simp [decide?, unit, known, Connective.unit]
  | some value => cases value <;> simp [decide?, unit, known, Connective.unit]

/-- Without an operand that does not matter, only one that settles the matter can do so. -/
theorem decide?_logic_of_ne_unit {value : Bool} (left : l.decide? ≠ some op.unit)
    (known : (logic op l r).decide? = some value) :
    value = !op.unit ∧ (l.decide? = some (!op.unit) ∨ r.decide? = some (!op.unit)) := by
  simp only [decide?] at known
  split at known
  · next zero => exact ⟨(Option.some.inj known).symm, zero⟩
  · rw [if_neg fun units => left units.1] at known
    cases known

end Logic

/-- The sign stands for a negation in front. -/
theorem decide?_of_strips {e rest : Expr} {sign sign' : Bool} (strips : Strips e sign rest sign') :
    (if sign then logicNot e else e).decide? =
      (if sign' then logicNot rest else rest).decide? := by
  induction strips with
  | stop single => rfl
  | @down e rest sign sign' further ih =>
    rw [← ih]
    cases sign with
    | false => rfl
    | true => simp [decide?, Function.comp_def]

theorem decide?_of_simplifies {e e' : Expr} (run : Simplifies e e') {value : Bool}
    (known : e.decide? = some value) : e'.decide? = some value := by
  induction run generalizing value with
  | inputs | constant | literal => exact known
  | not | bitwise | compare | side | opposite => simp [decide?] at known
  | @test e e' logical inner ih =>
    have other : ∀ mask, e ≠ constant mask := by
      intro mask same
      subst same
      cases logical
    rw [decide?_reduce .or other, if_pos ⟨rfl, logical⟩] at known
    exact ih known
  | @reduce op e e' needed inner ih =>
    by_cases other : ∀ mask, e ≠ constant mask
    · rw [decide?_reduce op other, if_neg needed] at known
      cases known
    · obtain ⟨mask, same⟩ := not_forall_not.1 other
      subst same
      cases inner
      exact known
  | odd strips inner ih =>
    have chain := decide?_of_strips strips
    simp only [if_true] at chain
    rw [chain] at known
    obtain ⟨v, here, rfl⟩ := Option.map_eq_some_iff.1 known
    simp only [decide?, ih here, Option.map_some]
  | even strips inner ih =>
    have chain := decide?_of_strips strips
    simp only [if_true, Bool.false_eq_true, if_false] at chain
    exact ih (chain ▸ known)
  | right unit inner ih => exact ih (decide?_logic_of_unit_left unit ▸ known)
  | left _ unit inner ih => exact ih (decide?_logic_of_unit_right unit ▸ known)
  | logic otherLeft _ left right ihl ihr =>
    obtain ⟨rfl, zero⟩ := decide?_logic_of_ne_unit otherLeft known
    apply decide?_logic_of_zero
    exact zero.imp ihl ihr

/-- A known value is the value for all inputs, and it is known after simplification. An operand that
settles a conjunction or disjunction makes it known, whatever the other one is. -/
theorem known_values_hold_and_survive (e : Expr) :
    (∀ value, e.decide? = some value →
      (∀ x, e.holds x = value) ∧ e.simplify.decide? = some value) ∧
    (logic .and (literal false) e).decide? = some false ∧
    (logic .and e (literal false)).decide? = some false ∧
    (logic .or (literal true) e).decide? = some true ∧
    (logic .or e (literal true)).decide? = some true := by
  refine ⟨fun value known => ⟨holds_of_decide?_eq_some known, ?_⟩, decide?_logic_of_zero (.inl rfl),
    decide?_logic_of_zero (.inr rfl), decide?_logic_of_zero (.inl rfl),
    decide?_logic_of_zero (.inr rfl)⟩
  obtain ⟨e', run⟩ := e.exists_simplifies
  exact run.eq_simplify ▸ decide?_of_simplifies run known

/-- A conjunction that is false whatever its vector is, in a disjunction with a known parity, behind
two negations. -/
def settled : Expr :=
  logicNot (logicNot (logic .or (logic .and (inputs [0, 1]) (literal false))
    (reduce .xor (constant (Mask.ofNat 4 3)))))

theorem known_values_hold_and_survive_settled :
    settled.decide? = some true ∧ (∀ x, settled.holds x = true) ∧
      settled.simplify.decide? = some true ∧ settled.simplify.nodes < settled.nodes := by
  have known : settled.decide? = some true := by decide +kernel
  obtain ⟨holds, kept⟩ := (known_values_hold_and_survive settled).1 true known
  exact ⟨known, holds, kept, by decide +kernel⟩

end FsmFabric.Expr
