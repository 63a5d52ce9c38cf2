import FsmFabric.Proofs.Expr.Reads
import FsmFabric.Proofs.Expr.Pass

/-!
# A simplified expression in the place of the original

The pass drops operands and never adds an input, so the support of a simplified expression lies
within the support of the original. Together with `simplify_standsFor` this is all that a reader of
a coerced expression can observe: its kind, its width, its value and the inputs it asks for.
-/

namespace FsmFabric.Expr

/-! ## Coerced by construction -/

theorem isCoerced_negate {e : Expr} (coerced : e.isCoerced = true) :
    e.negate.isCoerced = true := by
  rw [negate, isCoerced, isLogic_truth, isCoerced_truth coerced]
  rfl

theorem isCoerced_logic_truth (op : Connective) {a b : Expr} (coercedA : a.isCoerced = true)
    (coercedB : b.isCoerced = true) : (logic op a.truth b.truth).isCoerced = true := by
  rw [isCoerced, isLogic_truth, isLogic_truth, isCoerced_truth coercedA, isCoerced_truth coercedB]
  rfl

/-! ## Inputs -/

theorem reads_truth (e : Expr) : e.truth.reads = e.reads := by
  unfold truth
  split <;> rfl

theorem reads_simplifyWithin (fuel : Nat) (e : Expr) : (simplifyWithin fuel e).reads ⊆ e.reads := by
  induction fuel generalizing e with
  | zero => exact List.Subset.refl _
  | succ fuel ih =>
    -- an operator that stays is read through its operands
    have binary (l r : Expr) :
        (simplifyWithin fuel l).reads ++ (simplifyWithin fuel r).reads ⊆ l.reads ++ r.reads :=
      List.append_subset.2 ⟨List.subset_append_of_subset_left _ (ih l),
        List.subset_append_of_subset_right _ (ih r)⟩
    cases e with
    | inputs | constant | literal => exact List.Subset.refl _
    | not e => exact ih e
    | bitwise op l r => exact binary l r
    | compare negated l r =>
      have side {rest : Expr} {invert : Bool}
          (found : comparison? negated l r = some (rest, invert)) :
          rest.reads ⊆ l.reads ++ r.reads := by
        rcases (isLogic_of_comparison? found).2 with rfl | rfl
        · exact List.subset_append_left _ _
        · exact List.subset_append_right _ _
      simp only [simplifyWithin]
      split
      · next rest found => exact List.Subset.trans (ih rest) (side found)
      · next rest found => exact List.Subset.trans (ih _) (List.Subset.trans (ih rest) (side found))
      · exact binary l r
    | reduce op e =>
      cases op with
      | and | xor => exact ih e
      | or =>
        simp only [simplifyWithin]
        split
        · exact ih e
        · exact ih e
    | logicNot e =>
      cases e with
      | logicNot e => exact ih e
      | _ => exact ih _
    | logic op l r =>
      simp only [simplifyWithin]
      split
      · exact List.subset_append_of_subset_right _ (ih r)
      · split
        · exact List.subset_append_of_subset_left _ (ih l)
        · exact binary l r

theorem reads_simplify (e : Expr) : e.simplify.reads ⊆ e.reads :=
  reads_simplifyWithin e.nodes e

/-- The support exists when every input that is read has a successor in range. -/
theorem exists_support_iff {e : Expr} :
    (∃ support, e.support = .ok support) ↔ ∀ i ∈ e.reads, i + 1 < Checked.limit := by
  have general (reads : List Nat) (m : Mask) :
      (∃ support, reads.foldlM (fun m i => do
        let _ ← Checked.add i 1
        return m.insert i) m = .ok support) ↔ ∀ i ∈ reads, i + 1 < Checked.limit := by
    induction reads generalizing m with
    | nil => exact ⟨fun _ => nofun, fun _ => ⟨m, rfl⟩⟩
    | cons read rest ih =>
      rw [List.forall_mem_cons, ← ih (m.insert read)]
      simp only [List.foldlM_cons, bind_eq_ok, Checked.add, Checked.within_eq_ok, pure_eq_ok]
      constructor
      · rintro ⟨support, _, ⟨_, ⟨below, rfl⟩, rfl⟩, found⟩
        exact ⟨below, support, found⟩
      · rintro ⟨below, support, found⟩
        exact ⟨support, m.insert read, ⟨read + 1, ⟨below, rfl⟩, rfl⟩, found⟩
  exact general e.reads Mask.empty

theorem exists_support_simplify {e : Expr} {support : Mask} (found : e.support = .ok support) :
    ∃ kept, e.simplify.support = .ok kept ∧ ∀ i, kept.get i = true → support.get i = true := by
  have inRange := exists_support_iff.1 ⟨support, found⟩
  obtain ⟨kept, same⟩ := exists_support_iff.2 fun i read => inRange i (e.reads_simplify read)
  refine ⟨kept, same, fun i set => ?_⟩
  rw [get_support found]
  exact e.reads_simplify ((get_support same i).1 set)

/-- Simplification of a coerced expression keeps its kind, its value with all bits and the width,
and adds no input. The constructors that coerce their operands give coerced expressions. -/
theorem simplify_preserves_coerced {e : Expr} (coerced : e.isCoerced = true) :
    (e.simplify.isCoerced = true ∧ e.simplify.isLogic = e.isLogic ∧
      ∀ x, e.simplify.eval x = e.eval x) ∧
    e.simplify.reads ⊆ e.reads ∧
    (∀ support, e.support = .ok support → ∃ kept, e.simplify.support = .ok kept ∧
      ∀ i, kept.get i = true → support.get i = true) ∧
    e.negate.isCoerced = true ∧ ∀ e' : Expr, e'.isCoerced = true →
      (e.both e').isCoerced = true ∧ (e.either e').isCoerced = true := by
  have stands := simplify_standsFor coerced
  refine ⟨⟨stands.coerced, stands.isLogic, stands.eval⟩, e.reads_simplify,
    fun support => exists_support_simplify, isCoerced_negate coerced, fun e' coerced' => ?_⟩
  exact ⟨isCoerced_logic_truth .and coerced coerced', isCoerced_logic_truth .or coerced coerced'⟩

/-- Input 7 stands in a condition that is known to be false, so the comparison with it is the
negation of the other side. -/
def idle : Expr := compare false (both (input 7) (literal false)) (negate (inputs [0, 1]))

theorem simplify_preserves_coerced_idle :
    idle.isCoerced = true ∧ idle.support = .ok (Mask.ofFun 8 fun i => [0, 1, 7].contains i) ∧
      (∀ x, idle.simplify.eval x = idle.eval x) ∧ idle.simplify.reads = [0, 1] ∧
      ∃ kept, idle.simplify.support = .ok kept ∧ kept.get 7 = false ∧ ∀ i, kept.get i = true →
        (Mask.ofFun 8 fun i => [0, 1, 7].contains i).get i = true := by
  have found : idle.support = .ok (Mask.ofFun 8 fun i => [0, 1, 7].contains i) := by decide +kernel
  obtain ⟨⟨-, -, same⟩, -, supports, -⟩ := simplify_preserves_coerced (e := idle) rfl
  obtain ⟨kept, foundKept, inside⟩ := supports _ found
  have dropped : ¬ kept.get 7 = true := by
    rw [get_support foundKept]
    decide
  exact ⟨rfl, found, same, by decide, kept, foundKept, Bool.eq_false_iff.2 dropped, inside⟩

end FsmFabric.Expr
