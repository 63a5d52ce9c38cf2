import FsmFabric.Proofs.Expr.Width

/-!
# The pass as a derivation

`simplify` counts its nested steps down from the number of nodes. Here the pass is given once more by
its rules alone, with nothing that would stop it: a derivation of `Simplifies e e'` is the tree of
all passes that are started on the way from `e` to `e'`, so there is one exactly when the pass ends.
All of these work on operands, except for one. A comparison that becomes the negation of its other
side is simplified a second time, as a negation of what the first pass has left of that side. It is
no part of the comparison, and it is smaller only because the first pass has not grown its argument.
-/

namespace FsmFabric.Expr

/-! ## Rules -/

/-- Walks down a chain of negations, changing the sign at each of them. -/
inductive Strips : Expr → Bool → Expr → Bool → Prop
  | stop {e : Expr} {sign : Bool} (single : ∀ inner, e ≠ logicNot inner) : Strips e sign e sign
  | down {e rest : Expr} {sign sign' : Bool} (further : Strips e (!sign) rest sign') :
      Strips (logicNot e) sign rest sign'

/-- The pass over the first expression ends with the second one. -/
inductive Simplifies : Expr → Expr → Prop
  | inputs (positions : List Nat) : Simplifies (inputs positions) (inputs positions)
  | constant (mask : Mask) : Simplifies (constant mask) (constant mask)
  | literal (value : Bool) : Simplifies (literal value) (literal value)
  | not {e e' : Expr} (inner : Simplifies e e') : Simplifies (not e) (not e')
  | bitwise {op : BitOp} {l l' r r' : Expr} (left : Simplifies l l') (right : Simplifies r r') :
      Simplifies (bitwise op l r) (bitwise op l' r')
  | compare {negated : Bool} {l l' r r' : Expr} (unknown : comparison? negated l r = none)
      (left : Simplifies l l') (right : Simplifies r r') :
      Simplifies (compare negated l r) (compare negated l' r')
  | side {negated : Bool} {l r rest e' : Expr}
      (known : comparison? negated l r = some (rest, false)) (inner : Simplifies rest e') :
      Simplifies (compare negated l r) e'
  | opposite {negated : Bool} {l r rest e' e'' : Expr}
      (known : comparison? negated l r = some (rest, true)) (first : Simplifies rest e')
      (second : Simplifies (logicNot e') e'') : Simplifies (compare negated l r) e''
  | test {e e' : Expr} (logical : e.isLogic = true) (inner : Simplifies e e') :
      Simplifies (reduce .or e) e'
  | reduce {op : Reduction} {e e' : Expr} (needed : ¬ (op = .or ∧ e.isLogic = true))
      (inner : Simplifies e e') : Simplifies (reduce op e) (reduce op e')
  | odd {e rest e' : Expr} (strips : Strips e true rest true) (inner : Simplifies rest e') :
      Simplifies (logicNot e) (logicNot e')
  | even {e rest e' : Expr} (strips : Strips e true rest false) (inner : Simplifies rest e') :
      Simplifies (logicNot e) e'
  | right {op : Connective} {l r e' : Expr} (known : l.decide? = some op.unit)
      (inner : Simplifies r e') : Simplifies (logic op l r) e'
  | left {op : Connective} {l r e' : Expr} (unknown : l.decide? ≠ some op.unit)
      (known : r.decide? = some op.unit) (inner : Simplifies l e') : Simplifies (logic op l r) e'
  | logic {op : Connective} {l l' r r' : Expr} (unknownLeft : l.decide? ≠ some op.unit)
      (unknownRight : r.decide? ≠ some op.unit) (left : Simplifies l l')
      (right : Simplifies r r') : Simplifies (logic op l r) (logic op l' r')

/-- The pass over the second expression may start a pass over the first one. -/
inductive Calls : Expr → Expr → Prop
  | operand {s e : Expr} (member : s ∈ e.operands) : Calls s e
  | stripped {e rest : Expr} {sign : Bool} (strips : Strips e true rest sign) :
      Calls rest (logicNot e)
  | opposite {negated : Bool} {l r rest e' : Expr}
      (known : comparison? negated l r = some (rest, true)) (first : Simplifies rest e') :
      Calls (logicNot e') (compare negated l r)

/-! ## Chains of negations -/

theorem exists_strips (e : Expr) (sign : Bool) : ∃ rest sign', Strips e sign rest sign' := by
  induction e generalizing sign with
  | logicNot e ih =>
    obtain ⟨rest, sign', further⟩ := ih (!sign)
    exact ⟨rest, sign', .down further⟩
  | inputs | constant | not | bitwise | compare | reduce | logic | literal =>
    exact ⟨_, sign, .stop fun inner same => by cases same⟩

theorem Strips.nodes_le {e rest : Expr} {sign sign' : Bool} (strips : Strips e sign rest sign') :
    rest.nodes ≤ e.nodes := by
  induction strips with
  | stop single => exact le_rfl
  | down further ih => exact ih.trans (Nat.le_succ _)

/-- The sign stands for a negation in front. Both ends of a walk then simplify to the same. -/
theorem Strips.simplify {e rest : Expr} {sign sign' : Bool} (strips : Strips e sign rest sign') :
    (if sign then logicNot e else e).simplify =
      if sign' then logicNot rest.simplify else rest.simplify := by
  induction strips with
  | @stop e sign single =>
    cases sign with
    | false => rfl
    | true => exact simplify_logicNot single
  | @down e rest sign sign' further ih =>
    rw [← ih]
    cases sign with
    | false => rfl
    | true => exact simplify_logicNot_logicNot e

/-! ## Derivations and the function -/

theorem Simplifies.eq_simplify {e e' : Expr} (run : Simplifies e e') : e' = e.simplify := by
  induction run with
  | inputs | constant | literal => rfl
  | not _ ih => rw [ih, simplify_not]
  | bitwise _ _ ihl ihr => rw [ihl, ihr, simplify_bitwise]
  | compare unknown _ _ ihl ihr => rw [ihl, ihr, simplify_compare_of_none unknown]
  | side known _ ih => rw [ih, simplify_compare_of_some known, if_neg Bool.false_ne_true]
  | opposite known _ _ ihFirst ihSecond =>
    rw [ihSecond, ihFirst, simplify_compare_of_some known, if_pos rfl]
  | test logical _ ih => rw [ih, simplify_reduce, if_pos ⟨rfl, logical⟩]
  | reduce needed _ ih => rw [ih, simplify_reduce, if_neg needed]
  | odd strips _ ih => rw [ih]; exact strips.simplify.symm
  | even strips _ ih => rw [ih]; exact strips.simplify.symm
  | right known _ ih => rw [ih, simplify_logic, if_pos known]
  | left unknown known _ ih => rw [ih, simplify_logic, if_neg unknown, if_pos known]
  | logic unknownLeft unknownRight _ _ ihl ihr =>
    rw [ihl, ihr, simplify_logic, if_neg unknownLeft, if_neg unknownRight]

theorem Simplifies.nodes_le {e e' : Expr} (run : Simplifies e e') : e'.nodes ≤ e.nodes :=
  run.eq_simplify ▸ e.nodes_simplify_le

theorem Calls.nodes_lt {s e : Expr} (calls : Calls s e) : s.nodes < e.nodes := by
  cases calls with
  | operand member => exact nodes_of_mem_operands member
  | stripped strips => exact Nat.lt_succ_of_le strips.nodes_le
  | opposite known first =>
    have smaller := nodes_of_comparison? known
    have kept := first.nodes_le
    simp only [nodes]
    omega

theorem wellFounded_calls : WellFounded Calls :=
  Subrelation.wf Calls.nodes_lt (measure nodes).wf

theorem exists_simplifies (e : Expr) : ∃ e', Simplifies e e' := by
  induction e using wellFounded_calls.induction with
  | _ e ih =>
    have operand {s : Expr} (member : s ∈ e.operands) : ∃ s', Simplifies s s' :=
      ih s (.operand member)
    have sides {l r : Expr} (both : e.operands = [l, r]) :
        (∃ l', Simplifies l l') ∧ ∃ r', Simplifies r r' :=
      ⟨operand (by simp [both]), operand (by simp [both])⟩
    cases e with
    | inputs positions => exact ⟨_, .inputs positions⟩
    | constant mask => exact ⟨_, .constant mask⟩
    | literal value => exact ⟨_, .literal value⟩
    | not e =>
      obtain ⟨e', inner⟩ := operand (List.mem_singleton_self e)
      exact ⟨_, .not inner⟩
    | bitwise op l r =>
      obtain ⟨⟨l', left⟩, r', right⟩ := sides rfl
      exact ⟨_, .bitwise left right⟩
    | compare negated l r =>
      obtain ⟨⟨l', left⟩, r', right⟩ := sides rfl
      cases known : comparison? negated l r with
      | none => exact ⟨_, .compare known left right⟩
      | some kept =>
        obtain ⟨rest, invert⟩ := kept
        obtain ⟨rest', first⟩ : ∃ rest', Simplifies rest rest' := by
          rcases (isLogic_of_comparison? known).2 with rfl | rfl
          · exact ⟨l', left⟩
          · exact ⟨r', right⟩
        cases invert with
        | false => exact ⟨rest', .side known first⟩
        | true =>
          -- no operand, but the first pass has ended, so its result is known to be small
          obtain ⟨e'', second⟩ := ih (logicNot rest') (.opposite known first)
          exact ⟨e'', .opposite known first second⟩
    | reduce op e =>
      obtain ⟨e', inner⟩ := operand (List.mem_singleton_self e)
      by_cases boolean : op = .or ∧ e.isLogic = true
      · obtain ⟨rfl, logical⟩ := boolean
        exact ⟨e', .test logical inner⟩
      · exact ⟨_, .reduce boolean inner⟩
    | logicNot e =>
      obtain ⟨rest, sign, strips⟩ := exists_strips e true
      obtain ⟨rest', inner⟩ := ih rest (.stripped strips)
      cases sign with
      | true => exact ⟨_, .odd strips inner⟩
      | false => exact ⟨rest', .even strips inner⟩
    | logic op l r =>
      obtain ⟨⟨l', left⟩, r', right⟩ := sides rfl
      by_cases knownLeft : l.decide? = some op.unit
      · exact ⟨r', .right knownLeft right⟩
      · by_cases knownRight : r.decide? = some op.unit
        · exact ⟨l', .left knownLeft knownRight left⟩
        · exact ⟨_, .logic knownLeft knownRight left right⟩

/-- The pass over any expression ends: no chain of nested passes is infinite, there is a derivation,
and every derivation leads to what `simplify` gives. It has no more nodes than the expression. -/
theorem simplify_ends_without_growth (e : Expr) :
    Acc Calls e ∧ (∃ e', Simplifies e e') ∧ (∀ e', Simplifies e e' ↔ e' = e.simplify) ∧
      e.simplify.nodes ≤ e.nodes := by
  refine ⟨wellFounded_calls.apply e, e.exists_simplifies, fun e' => ⟨?_, ?_⟩, ?_⟩
  · exact Simplifies.eq_simplify
  · rintro rfl
    obtain ⟨e', run⟩ := e.exists_simplifies
    exact run.eq_simplify ▸ run
  · obtain ⟨e', run⟩ := e.exists_simplifies
    exact run.eq_simplify ▸ run.nodes_le

end FsmFabric.Expr
