import FsmFabric.Proofs.Expr.Pass

/-!
# What simplification keeps of any expression

A Boolean expression is one bit wide, but the operand that simplification leaves of it may be a
wider vector: `true && v` becomes `v`. Whether it holds is still the same, and that is all that most
operators ask of an operand. The others use all its bits. `Keeps` follows the pass through an
expression and asks that a Boolean operand whose bits are used stays one bit wide. Under that
condition the truth of an expression is kept for all inputs. An operand whose width changes does
change the truth of a comparison around it, for all inputs.
-/

namespace FsmFabric.Expr

/-! ## Widths -/

/-- The number of bits of the value, which is the same for all inputs. -/
def width : Expr → Nat
  | inputs positions => positions.length
  | constant mask => mask.size
  | not e => e.width
  | bitwise _ l r => max l.width r.width
  | compare .. | reduce .. | logicNot _ | logic .. | literal _ => 1

theorem size_eval (e : Expr) (x : Nat → Bool) : (e.eval x).size = e.width := by
  induction e with
  | inputs | constant | compare | reduce | logicNot | logic | literal => simp [eval, bit, width]
  | not e ih => simp [eval, width, ih]
  | bitwise op l r ihl ihr => simp [eval, width, ihl, ihr]

theorem width_of_isLogic {e : Expr} (logical : e.isLogic = true) : e.width = 1 := by
  cases e <;> first | rfl | cases logical

/-- A value of one bit is determined by whether it holds. -/
theorem eval_eq_of_holds {a b : Expr} {x : Nat → Bool} (widthA : a.width = 1) (widthB : b.width = 1)
    (same : a.holds x = b.holds x) : a.eval x = b.eval x := by
  have first {e : Expr} (width : e.width = 1) : e.holds x = (e.eval x).get 0 := by
    rw [Bool.eq_iff_iff, holds, Mask.any_iff]
    refine ⟨?_, fun set => ⟨0, set⟩⟩
    rintro ⟨i, set⟩
    have inside := Mask.lt_size_of_get set
    rw [size_eval, width, Nat.lt_one_iff] at inside
    exact inside ▸ set
  apply Mask.eq_of_get
  · rw [size_eval, size_eval, widthA, widthB]
  intro i
  by_cases inside : i < 1
  · rw [Nat.lt_one_iff.1 inside, ← first widthA, ← first widthB, same]
  · rw [Mask.get_of_size_le _ (by rw [size_eval]; omega),
      Mask.get_of_size_le _ (by rw [size_eval]; omega)]

theorem holds_bitwise_or (l r : Expr) (x : Nat → Bool) :
    (bitwise .or l r).holds x = (l.holds x || r.holds x) := by
  have operandBit_get (m : Mask) (i : Nat) : operandBit m false i = m.get i := by
    unfold operandBit
    split
    · rfl
    · next past => exact (m.get_of_size_le (Nat.le_of_not_lt past)).symm
  have either (i : Nat) :
      ((bitwise .or l r).eval x).get i = ((l.eval x).get i || (r.eval x).get i) := by
    simp only [eval, BitOp.missing, BitOp.apply, operandBit_get, Mask.get_ofFun]
    by_cases inside : i < max (l.eval x).size (r.eval x).size
    · simp only [inside, decide_true, Bool.true_and]
    · rw [Mask.get_of_size_le _ (by omega), Mask.get_of_size_le _ (by omega)]
      exact Bool.and_false _
  rw [Bool.eq_iff_iff, Bool.or_eq_true, holds, holds, holds, Mask.any_iff, Mask.any_iff,
    Mask.any_iff, ← exists_or]
  simp only [either, Bool.or_eq_true]

/-! ## What the pass keeps -/

/-- What an operator uses of its operands. -/
inductive Use where
  /-- Whether they hold. -/
  | truth
  /-- All their bits. -/
  | bits

/-- What the operator uses that the pass leaves in the place of the outermost one. -/
def uses : Expr → Use
  | not _ | bitwise .and .. | bitwise .xor .. | bitwise .xnor .. => .bits
  | compare negated l r => if (comparison? negated l r).isSome then .truth else .bits
  | reduce .and _ | reduce .xor _ => .bits
  | inputs _ | constant _ | bitwise .or .. | reduce .or _ | logicNot _ | logic .. | literal _ =>
    .truth

def operands : Expr → List Expr
  | inputs _ | constant _ | literal _ => []
  | not e | reduce _ e | logicNot e => [e]
  | bitwise _ l r | compare _ l r | logic _ l r => [l, r]

/-- The expressions that the pass goes on to simplify. -/
def remaining : Expr → List Expr
  | compare negated l r =>
    match comparison? negated l r with
    | some (rest, false) => [rest]
    | some (rest, true) => [rest, logicNot rest.simplify]
    | none => [l, r]
  | logic op l r =>
    if l.decide? = some op.unit then [r] else if r.decide? = some op.unit then [l] else [l, r]
  | e => e.operands

/-- The pass keeps what is used of an expression, because it leaves every Boolean expression whose
bits are used one bit wide. -/
inductive Keeps : Use → Expr → Prop
  | truth {e : Expr} (inner : ∀ s ∈ e.remaining, Keeps e.uses s) : Keeps .truth e
  | bit {e : Expr} (logical : e.isLogic = true) (single : e.simplify.width = 1)
      (holds : Keeps .truth e) : Keeps .bits e
  | vector {e : Expr} (vector : e.isLogic = false) (inner : ∀ s ∈ e.remaining, Keeps .bits s) :
      Keeps .bits e

/-- Two expressions agree for all inputs in what is used of them. -/
def Agrees : Use → Expr → Expr → Prop
  | .truth, a, b => ∀ x, a.holds x = b.holds x
  | .bits, a, b => ∀ x, a.eval x = b.eval x

theorem Agrees.holds {u : Use} {a b : Expr} (agrees : Agrees u a b) (x : Nat → Bool) :
    a.holds x = b.holds x := by
  cases u with
  | truth => exact agrees x
  | bits => rw [Expr.holds, Expr.holds, agrees x]

/-- Negation commutes with the pass as far as truth is concerned. -/
theorem holds_simplify_logicNot (e : Expr) (x : Nat → Bool) :
    (logicNot e).simplify.holds x = !e.simplify.holds x := by
  induction e with
  | logicNot e ih => rw [simplify_logicNot_logicNot, ih, Bool.not_not]
  | _ => rw [simplify_logicNot (by intro inner; exact nofun), holds_logicNot]

theorem holds_reduce_or (e : Expr) (x : Nat → Bool) : (reduce .or e).holds x = e.holds x := by
  simp only [holds, eval, Reduction.apply, any_bit]

/-- The truth of an expression is kept when what its operator uses of the operands is. -/
theorem holds_simplify_of_remaining {e : Expr}
    (inner : ∀ s ∈ e.remaining, Agrees e.uses s.simplify s) (x : Nat → Bool) :
    e.simplify.holds x = e.holds x := by
  cases e with
  | inputs | constant | literal => rfl
  | not e =>
    have same := inner e (List.mem_singleton_self e) x
    simp only [simplify_not, holds, eval, same]
  | bitwise op l r =>
    obtain ⟨left, right⟩ : Agrees _ l.simplify l ∧ Agrees _ r.simplify r :=
      ⟨inner l (by simp [remaining, operands]), inner r (by simp [remaining, operands])⟩
    rw [simplify_bitwise]
    cases op with
    | or => rw [holds_bitwise_or, holds_bitwise_or, left.holds, right.holds]
    | and | xor | xnor => simp only [holds, eval, left x, right x]
  | compare negated l r =>
    cases found : comparison? negated l r with
    | none =>
      simp only [remaining, uses, found] at inner
      have left := inner l (by simp) x
      have right := inner r (by simp) x
      rw [simplify_compare_of_none found]
      simp only [holds, eval, left, right]
    | some kept =>
      obtain ⟨rest, invert⟩ := kept
      rw [simplify_compare_of_some found, holds_of_comparison? found]
      cases invert with
      | false =>
        simp only [remaining, found] at inner
        rw [if_neg Bool.false_ne_true, (inner rest (by simp)).holds, Bool.bne_false]
      | true =>
        simp only [remaining, found] at inner
        rw [if_pos rfl, (inner (logicNot rest.simplify) (by simp)).holds, holds_logicNot,
          (inner rest (by simp)).holds, Bool.bne_true]
  | reduce op e =>
    have same := inner e (List.mem_singleton_self e)
    rw [simplify_reduce]
    cases op with
    | and | xor =>
      rw [if_neg (by simp)]
      simp only [holds, eval, same x]
    | or =>
      rw [holds_reduce_or]
      split
      · exact same x
      · rw [holds_reduce_or]
        exact same x
  | logicNot e =>
    have same := inner e (List.mem_singleton_self e)
    rw [holds_simplify_logicNot, holds_logicNot, same.holds]
  | logic op l r =>
    rw [simplify_logic, holds_logic]
    simp only [remaining, uses] at inner
    split
    · next known =>
      rw [if_pos known] at inner
      rw [holds_of_decide?_eq_some known, Connective.apply_unit_left,
        (inner r (by simp)).holds]
    · next unknown =>
      rw [if_neg unknown] at inner
      split
      · next known =>
        rw [if_pos known] at inner
        rw [holds_of_decide?_eq_some known, Connective.apply_unit_right,
          (inner l (by simp)).holds]
      · next unknown =>
        rw [if_neg unknown] at inner
        rw [holds_logic, (inner l (by simp)).holds, (inner r (by simp)).holds]

theorem Keeps.agrees {u : Use} {e : Expr} (keeps : Keeps u e) : Agrees u e.simplify e := by
  induction keeps with
  | truth _ ih => exact holds_simplify_of_remaining ih
  | bit logical single _ ih =>
    intro x
    exact eval_eq_of_holds single (width_of_isLogic logical) (ih x)
  | @vector e vector _ ih =>
    intro x
    cases e with
    | inputs | constant => rfl
    | not e =>
      have same := ih e (List.mem_singleton_self e) x
      simp only [simplify_not, eval, same]
    | bitwise op l r =>
      have left := ih l (by simp [remaining, operands]) x
      have right := ih r (by simp [remaining, operands]) x
      rw [simplify_bitwise]
      simp only [eval, left, right]
    | compare | reduce | logicNot | logic | literal => cases vector

/-! ## Coerced expressions -/

/-- The pass goes on with operands, and with a negation that it makes of an operand. -/
theorem mem_remaining {e s : Expr} (member : s ∈ e.remaining) :
    s ∈ e.operands ∨ ∃ negated l r rest, e = compare negated l r ∧
      comparison? negated l r = some (rest, true) ∧ s = logicNot rest.simplify := by
  cases e with
  | inputs | constant | literal | not | reduce | logicNot | bitwise => exact .inl member
  | compare negated l r =>
    cases found : comparison? negated l r with
    | none =>
      simp only [remaining, found] at member
      exact .inl member
    | some kept =>
      obtain ⟨rest, invert⟩ := kept
      have operand : rest ∈ (compare negated l r).operands := by
        simpa [operands] using (isLogic_of_comparison? found).2
      cases invert with
      | false =>
        simp only [remaining, found, List.mem_singleton] at member
        exact .inl (member ▸ operand)
      | true =>
        simp only [remaining, found, List.mem_cons, List.not_mem_nil, or_false] at member
        rcases member with rfl | rfl
        · exact .inl operand
        · exact .inr ⟨negated, l, r, rest, rfl, found, rfl⟩
  | logic op l r =>
    left
    simp only [remaining] at member
    split at member
    · exact List.mem_cons_of_mem l member
    · split at member
      · exact List.mem_cons.2 (.inl (List.mem_singleton.1 member))
      · exact member

theorem nodes_of_mem_operands {e s : Expr} (member : s ∈ e.operands) : s.nodes < e.nodes := by
  cases e with
  | inputs | constant | literal => cases member
  | not e | reduce op e | logicNot e =>
    cases List.mem_singleton.1 member
    exact Nat.lt_succ_self _
  | bitwise _ l r | compare _ l r | logic _ l r =>
    simp only [operands, List.mem_cons, List.not_mem_nil, or_false] at member
    rcases member with rfl | rfl <;> simp only [nodes] <;> omega

theorem nodes_of_mem_remaining {e s : Expr} (member : s ∈ e.remaining) : s.nodes < e.nodes := by
  rcases mem_remaining member with operand | ⟨negated, l, r, rest, rfl, found, rfl⟩
  · exact nodes_of_mem_operands operand
  · have smaller := nodes_of_comparison? found
    have kept := rest.nodes_simplify_le
    simp only [nodes]
    omega

theorem isCoerced_of_mem_operands {e s : Expr} (coerced : e.isCoerced = true)
    (member : s ∈ e.operands) : s.isCoerced = true := by
  cases e with
  | inputs | constant | literal => cases member
  | not e | reduce op e => exact List.mem_singleton.1 member ▸ coerced
  | logicNot e =>
    rw [isCoerced, Bool.and_eq_true] at coerced
    exact List.mem_singleton.1 member ▸ coerced.2
  | bitwise _ l r | compare _ l r | logic _ l r =>
    simp only [isCoerced, Bool.and_eq_true] at coerced
    simp only [operands, List.mem_cons, List.not_mem_nil, or_false] at member
    rcases member with rfl | rfl <;> simp only [coerced]

theorem isCoerced_of_mem_remaining {e s : Expr} (coerced : e.isCoerced = true)
    (member : s ∈ e.remaining) : s.isCoerced = true := by
  rcases mem_remaining member with operand | ⟨negated, l, r, rest, rfl, found, rfl⟩
  · exact isCoerced_of_mem_operands coerced operand
  · obtain ⟨logical, side⟩ := isLogic_of_comparison? found
    have operand : rest ∈ (compare negated l r).operands := by simpa [operands] using side
    have stands := simplify_standsFor (isCoerced_of_mem_operands coerced operand)
    exact (stands.logicNot logical).coerced

theorem keeps_of_isCoerced (u : Use) {e : Expr} (coerced : e.isCoerced = true) : Keeps u e := by
  induction size : e.nodes using Nat.strong_induction_on generalizing e u with
  | _ n ih =>
    have inner (u : Use) (s : Expr) (member : s ∈ e.remaining) : Keeps u s :=
      ih s.nodes (size ▸ nodes_of_mem_remaining member) u
        (isCoerced_of_mem_remaining coerced member) rfl
    have truth : Keeps .truth e := .truth (inner _)
    cases u with
    | truth => exact truth
    | bits =>
      cases logical : e.isLogic with
      | false => exact .vector logical (inner _)
      | true =>
        refine .bit logical ?_ truth
        have same := (simplify_standsFor coerced).isLogic
        exact width_of_isLogic (same.trans logical)

/-! ## Operands that change their width -/

/-- A bit that differs changes a comparison with the value that an expression has. -/
theorem compare_changes {s : Expr} {x : Nat → Bool} {i : Nat}
    (differ : (s.simplify.eval x).get i ≠ (s.eval x).get i) :
    (compare false s (constant (s.eval x))).holds x = true ∧
      (compare false s (constant (s.eval x))).simplify.holds x = false := by
  have vector : comparison? false s (constant (s.eval x)) = none := by simp [comparison?, isLogic]
  rw [simplify_compare_of_none vector]
  simp only [holds, eval, any_bit, Bool.bne_false]
  refine ⟨Mask.equals_iff.2 fun _ => rfl, ?_⟩
  rw [← Bool.not_eq_true]
  intro same
  exact differ (Mask.equals_iff.1 same i)

theorem get_eval_not (e : Expr) (x : Nat → Bool) (i : Nat) :
    ((not e).eval x).get i = (decide (i < e.width) && !(e.eval x).get i) := by
  simp only [eval, Mask.get_ofFun, size_eval]

/-- If all bits are the same, the widths show after inversion. -/
theorem exists_compare_changes {e : Expr} (changed : e.simplify.width ≠ e.width)
    (x : Nat → Bool) :
    ∃ s, (s = e ∨ s = not e) ∧ (compare false s (constant (s.eval x))).holds x = true ∧
      (compare false s (constant (s.eval x))).simplify.holds x = false := by
  by_cases same : ∀ i, (e.simplify.eval x).get i = (e.eval x).get i
  · refine ⟨not e, .inr rfl, compare_changes (i := min e.simplify.width e.width) ?_⟩
    have clear : (e.eval x).get (min e.simplify.width e.width) = false := by
      rcases Nat.lt_or_gt_of_ne changed with less | more
      · rw [← same]
        exact Mask.get_of_size_le _ (by rw [size_eval]; omega)
      · exact Mask.get_of_size_le _ (by rw [size_eval]; omega)
    rw [simplify_not, get_eval_not, get_eval_not, same, clear]
    simp only [Bool.not_false, Bool.and_true, ne_eq, decide_eq_decide]
    omega
  · obtain ⟨i, differ⟩ := not_forall.1 same
    exact ⟨e, .inl rfl, compare_changes differ⟩

/-- The truth of an expression is kept if the pass keeps what is used of it, as it does for all
coerced expressions. An expression whose width changes changes the truth of a comparison. -/
theorem simplify_keeps_truth (e : Expr) :
    (Keeps .truth e → ∀ x, e.simplify.holds x = e.holds x) ∧
      (e.isCoerced = true → Keeps .truth e) ∧
      (e.simplify.width ≠ e.width → ∀ x, ∃ s, (s = e ∨ s = not e) ∧
        (compare false s (constant (s.eval x))).holds x = true ∧
        (compare false s (constant (s.eval x))).simplify.holds x = false) :=
  ⟨Keeps.agrees, keeps_of_isCoerced .truth, exists_compare_changes⟩

/-- A vector of two bits behind a logical operator that the pass drops. -/
def masked : Expr := logic .and (literal true) (inputs [0, 1])

/-- With only input 1 set, `masked` holds, so it equals 1; its simplified form equals 2. -/
theorem simplify_widens_masked :
    (compare false masked (constant (bit true))).holds (fun i => i == 1) = true ∧
      (compare false masked (constant (bit true))).simplify.holds (fun i => i == 1) = false := by
  decide +kernel

/-- Not coerced: logical operators are applied to vectors, once where all bits are used. -/
def loose : Expr :=
  logic .or (compare false (logicNot (logicNot (inputs [2]))) (inputs [3])) masked

theorem keeps_loose : Keeps .truth loose := by
  have vector (u : Use) (positions : List Nat) : Keeps u (inputs positions) :=
    keeps_of_isCoerced u rfl
  have negation {e : Expr} (keeps : Keeps .truth e) : Keeps .truth (logicNot e) := by
    apply Keeps.truth
    intro s member
    exact List.mem_singleton.1 member ▸ keeps
  have single : Keeps .bits (logicNot (logicNot (inputs [2]))) :=
    .bit rfl rfl (negation (negation (vector .truth [2])))
  apply Keeps.truth
  show ∀ s ∈ [_, masked], Keeps .truth s
  simp only [List.forall_mem_cons]
  refine ⟨.truth ?_, .truth ?_, nofun⟩
  · show ∀ s ∈ [_, _], Keeps .bits s
    simp only [List.forall_mem_cons]
    exact ⟨single, vector .bits [3], nofun⟩
  · show ∀ s ∈ [_], Keeps .truth s
    simp only [List.forall_mem_cons]
    exact ⟨vector .truth [0, 1], nofun⟩

theorem simplify_keeps_truth_loose :
    loose.isCoerced = false ∧ Keeps .truth loose ∧ (∀ x, loose.simplify.holds x = loose.holds x) ∧
      (negate (inputs [0, 1])).isCoerced = true ∧ Keeps .truth (negate (inputs [0, 1])) ∧
      masked.simplify.width ≠ masked.width ∧ ∀ x, ∃ s, (s = masked ∨ s = not masked) ∧
        (compare false s (constant (s.eval x))).holds x = true ∧
        (compare false s (constant (s.eval x))).simplify.holds x = false :=
  ⟨rfl, keeps_loose, (simplify_keeps_truth loose).1 keeps_loose, rfl,
    (simplify_keeps_truth (negate (inputs [0, 1]))).2.1 rfl, by decide,
    (simplify_keeps_truth masked).2.2 (by decide)⟩

end FsmFabric.Expr
