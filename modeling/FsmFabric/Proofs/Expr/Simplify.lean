import FsmFabric.Expr.Simplify
import FsmFabric.Proofs.Mask

/-!
# Simplification keeps the value of coerced expressions

An expression is coerced when logical operators are only applied to Boolean operands. Such an
expression may be replaced by one of its operands without a change of width, so one pass of
`simplify` gives an expression of the same kind with the same value for all inputs.
-/

namespace FsmFabric.Expr

/-- Logical operators are only applied to Boolean operands. -/
def isCoerced : Expr → Bool
  | inputs _ | constant _ | literal _ => true
  | not e | reduce _ e => e.isCoerced
  | bitwise _ l r | compare _ l r => l.isCoerced && r.isCoerced
  | logicNot e => e.isLogic && e.isCoerced
  | logic _ l r => l.isLogic && r.isLogic && (l.isCoerced && r.isCoerced)

@[simp] theorem any_bit (value : Bool) : (bit value).any = value := by
  rw [Bool.eq_iff_iff, Mask.any_iff]
  simp [bit]

theorem equals_bit (a b : Bool) : (bit a).equals (bit b) = (a == b) := by
  rw [Bool.eq_iff_iff, Mask.equals_iff, beq_iff_eq]
  refine ⟨fun same => ?_, fun same i => by rw [same]⟩
  simpa [bit] using same 0

/-- A Boolean expression is one bit wide. -/
theorem eval_of_isLogic {e : Expr} (logical : e.isLogic = true) (x : Nat → Bool) :
    e.eval x = bit (e.holds x) := by
  cases e <;> simp_all [isLogic, eval, holds]

theorem holds_literal (value : Bool) (x : Nat → Bool) : (literal value).holds x = value := by
  simp [holds, eval]

theorem holds_logicNot (e : Expr) (x : Nat → Bool) : (logicNot e).holds x = !e.holds x := by
  simp [holds, eval]

theorem holds_logic (op : Connective) (l r : Expr) (x : Nat → Bool) :
    (logic op l r).holds x = op.apply (l.holds x) (r.holds x) := by
  simp [holds, eval]

theorem holds_truth (e : Expr) (x : Nat → Bool) : e.truth.holds x = e.holds x := by
  unfold truth
  split
  · rfl
  · simp [holds, eval, Reduction.apply]

theorem isLogic_truth (e : Expr) : e.truth.isLogic = true := by
  unfold truth
  split
  · assumption
  · rfl

theorem isCoerced_truth {e : Expr} (coerced : e.isCoerced = true) : e.truth.isCoerced = true := by
  unfold truth
  split
  · exact coerced
  · exact coerced

/-! ## Known conditions -/

theorem Connective.apply_unit_left (op : Connective) (b : Bool) : op.apply op.unit b = b := by
  cases op <;> rfl

theorem Connective.apply_unit_right (op : Connective) (b : Bool) : op.apply b op.unit = b := by
  cases op <;> cases b <;> rfl

theorem Connective.apply_zero_left (op : Connective) (b : Bool) :
    op.apply (!op.unit) b = !op.unit := by
  cases op <;> rfl

theorem Connective.apply_zero_right (op : Connective) (b : Bool) :
    op.apply b (!op.unit) = !op.unit := by
  cases op <;> cases b <;> rfl

/-- A value that is known without the inputs is the value for all inputs. -/
theorem holds_of_decide?_eq_some {e : Expr} {value : Bool} (known : e.decide? = some value)
    (x : Nat → Bool) : e.holds x = value := by
  induction e generalizing value with
  | literal v => simpa [holds, eval, decide?] using known
  | logicNot e ih =>
    obtain ⟨v, found, rfl⟩ := Option.map_eq_some_iff.1 known
    rw [holds_logicNot, ih found]
  | logic op l r ihl ihr =>
    simp only [decide?] at known
    rw [holds_logic]
    split at known
    · next zero =>
      obtain rfl := Option.some.inj known
      rcases zero with left | right
      · rw [ihl left, Connective.apply_zero_left]
      · rw [ihr right, Connective.apply_zero_right]
    · split at known
      · next units =>
        obtain rfl := Option.some.inj known
        rw [ihl units.1, ihr units.2, Connective.apply_unit_left]
      · cases known
  | reduce op e ih =>
    unfold decide? at known
    split at known
    case h_5 op e same =>
      obtain ⟨rfl, rfl⟩ := reduce.inj same
      split at known
      · rw [← ih known]
        simp [holds, eval, Reduction.apply]
      · cases known
    case h_4 op mask same =>
      obtain ⟨rfl, rfl⟩ := reduce.inj same
      simpa [holds, eval] using known
    all_goals simp_all
  | inputs | constant | not | bitwise | compare => simp [decide?] at known

/-! ## One pass -/

/-- `e'` can stand for `e`: it is coerced, of the same kind, and has the same value. -/
structure StandsFor (e' e : Expr) : Prop where
  coerced : e'.isCoerced = true
  isLogic : e'.isLogic = e.isLogic
  eval : ∀ x, e'.eval x = e.eval x

namespace StandsFor

theorem refl {e : Expr} (coerced : e.isCoerced = true) : e.StandsFor e := ⟨coerced, rfl, fun _ => rfl⟩

theorem trans {a b c : Expr} (first : a.StandsFor b) (second : b.StandsFor c) : a.StandsFor c :=
  ⟨first.coerced, first.isLogic.trans second.isLogic,
    fun x => (first.eval x).trans (second.eval x)⟩

theorem holds {a b : Expr} (same : a.StandsFor b) (x : Nat → Bool) : a.holds x = b.holds x := by
  simp [Expr.holds, same.eval x]

/-- Two coerced conditions with equal truth values stand for each other. -/
theorem of_holds {a b : Expr} (coerced : a.isCoerced = true) (logicalA : a.isLogic = true)
    (logicalB : b.isLogic = true) (same : ∀ x, a.holds x = b.holds x) : a.StandsFor b where
  coerced := coerced
  isLogic := logicalA.trans logicalB.symm
  eval x := by rw [eval_of_isLogic logicalA, eval_of_isLogic logicalB, same]

theorem logicNot {a b : Expr} (same : a.StandsFor b) (logical : b.isLogic = true) :
    (Expr.logicNot a).StandsFor (Expr.logicNot b) :=
  of_holds (by simp [isCoerced, same.coerced, same.isLogic, logical]) rfl rfl
    fun x => by rw [holds_logicNot, holds_logicNot, same.holds]

end StandsFor

/-- A comparison with a known condition has the value of the other side or its negation. -/
theorem holds_of_comparison? {negated invert : Bool} {l r rest : Expr}
    (found : comparison? negated l r = some (rest, invert)) (x : Nat → Bool) :
    (compare negated l r).holds x = (rest.holds x != invert) := by
  unfold comparison? at found
  split at found
  case isFalse => cases found
  case isTrue both =>
    rw [Bool.and_eq_true] at both
    have value : (compare negated l r).holds x = ((l.holds x == r.holds x) != negated) := by
      simp only [holds, eval, any_bit]
      rw [eval_of_isLogic both.1, eval_of_isLogic both.2, equals_bit, any_bit, any_bit]
    rw [value]
    split at found
    · next v known =>
      obtain ⟨rfl, rfl⟩ := Prod.mk.inj (Option.some.inj found)
      rw [holds_of_decide?_eq_some known]
      generalize r.holds x = b
      cases v <;> cases negated <;> cases b <;> rfl
    · next v _ known =>
      obtain ⟨rfl, rfl⟩ := Prod.mk.inj (Option.some.inj found)
      rw [holds_of_decide?_eq_some known]
      generalize l.holds x = a
      cases v <;> cases negated <;> cases a <;> rfl
    · cases found

/-- What remains of a comparison is one of its sides. -/
theorem isLogic_of_comparison? {negated invert : Bool} {l r rest : Expr}
    (found : comparison? negated l r = some (rest, invert)) :
    rest.isLogic = true ∧ (rest = l ∨ rest = r) := by
  unfold comparison? at found
  split at found
  case isFalse => cases found
  case isTrue both =>
    rw [Bool.and_eq_true] at both
    split at found
    · obtain ⟨rfl, -⟩ := Prod.mk.inj (Option.some.inj found)
      exact ⟨both.2, .inr rfl⟩
    · obtain ⟨rfl, -⟩ := Prod.mk.inj (Option.some.inj found)
      exact ⟨both.1, .inl rfl⟩
    · cases found

theorem simplifyWithin_standsFor (fuel : Nat) {e : Expr} (coerced : e.isCoerced = true) :
    (simplifyWithin fuel e).StandsFor e := by
  induction fuel generalizing e with
  | zero => exact .refl coerced
  | succ fuel ih =>
    cases e with
    | inputs | constant | literal => exact .refl rfl
    | not e =>
      have inner := ih (e := e) coerced
      exact ⟨inner.coerced, rfl, fun x => by simp only [simplifyWithin, eval, inner.eval x]⟩
    | bitwise op l r =>
      rw [isCoerced, Bool.and_eq_true] at coerced
      have left := ih coerced.1
      have right := ih coerced.2
      exact ⟨by simp [simplifyWithin, isCoerced, left.coerced, right.coerced], rfl,
        fun x => by simp only [simplifyWithin, eval, left.eval x, right.eval x]⟩
    | compare negated l r =>
      rw [isCoerced, Bool.and_eq_true] at coerced
      simp only [simplifyWithin]
      split
      · next rest found =>
        obtain ⟨logical, side⟩ := isLogic_of_comparison? found
        have kept := ih (e := rest) (by rcases side with rfl | rfl; exacts [coerced.1, coerced.2])
        refine kept.trans (.of_holds (by rcases side with rfl | rfl; exacts [coerced.1, coerced.2])
          logical rfl fun x => ?_)
        rw [holds_of_comparison? found, Bool.bne_false]
      · next rest found =>
        obtain ⟨logical, side⟩ := isLogic_of_comparison? found
        have kept := ih (e := rest) (by rcases side with rfl | rfl; exacts [coerced.1, coerced.2])
        have negation := kept.logicNot logical
        refine (ih negation.coerced).trans (.of_holds negation.coerced rfl rfl fun x => ?_)
        rw [holds_of_comparison? found, Bool.bne_true, holds_logicNot, kept.holds]
      · have left := ih coerced.1
        have right := ih coerced.2
        exact ⟨by simp [isCoerced, left.coerced, right.coerced], rfl,
          fun x => by simp only [eval, left.eval x, right.eval x]⟩
    | reduce op e =>
      have inner := ih (e := e) coerced
      have reduced (op : Reduction) : (reduce op (simplifyWithin fuel e)).StandsFor (reduce op e) :=
        ⟨inner.coerced, rfl, fun x => by simp only [eval, inner.eval x]⟩
      cases op with
      | and | xor => exact reduced _
      | or =>
        simp only [simplifyWithin]
        split
        · next logical =>
          refine inner.trans (.of_holds coerced logical rfl fun x => ?_)
          simp [holds, eval, Reduction.apply]
        · exact reduced _
    | logicNot e =>
      rw [isCoerced, Bool.and_eq_true] at coerced
      have inner := (ih coerced.2).logicNot coerced.1
      cases e with
      | logicNot e =>
        have deep := coerced.2
        rw [isCoerced, Bool.and_eq_true] at deep
        refine (ih deep.2).trans (.of_holds deep.2 deep.1 rfl fun x => ?_)
        rw [holds_logicNot, holds_logicNot, Bool.not_not]
      | inputs | constant | not | bitwise => cases coerced.1
      | compare | reduce | logic | literal => exact inner
    | logic op l r =>
      simp only [isCoerced, Bool.and_eq_true] at coerced
      obtain ⟨⟨logicL, logicR⟩, coercedL, coercedR⟩ := coerced
      simp only [simplifyWithin]
      split
      · next known =>
        refine (ih coercedR).trans (.of_holds coercedR logicR rfl fun x => ?_)
        rw [holds_logic, holds_of_decide?_eq_some known, Connective.apply_unit_left]
      · split
        · next known =>
          refine (ih coercedL).trans (.of_holds coercedL logicL rfl fun x => ?_)
          rw [holds_logic, holds_of_decide?_eq_some known, Connective.apply_unit_right]
        · have left := ih coercedL
          have right := ih coercedR
          refine .of_holds ?_ rfl rfl fun x => ?_
          · simp [isCoerced, left.coerced, right.coerced, left.isLogic, right.isLogic, logicL,
              logicR]
          · rw [holds_logic, holds_logic, left.holds, right.holds]

/-- A simplified expression can stand for a coerced one. -/
theorem simplify_standsFor {e : Expr} (coerced : e.isCoerced = true) : e.simplify.StandsFor e :=
  simplifyWithin_standsFor e.nodes coerced

end FsmFabric.Expr
