import FsmFabric.Expr.Basic
import FsmFabric.Proofs.Mask

/-!
# The inputs that matter

An expression depends only on the inputs that it mentions, and its support is the set of them.
-/

namespace FsmFabric.Expr

theorem eval_congr {e : Expr} {x y : Nat → Bool} (same : ∀ i ∈ e.reads, x i = y i) :
    e.eval x = e.eval y := by
  induction e with
  | inputs positions =>
    refine Mask.ofFun_congr fun i lt => ?_
    rw [List.getElem?_eq_getElem lt]
    exact same _ (List.getElem_mem lt)
  | constant | literal => rfl
  | not e ih | reduce op e ih | logicNot e ih => simp only [eval, ih same]
  | bitwise op l r ihl ihr | compare negated l r ihl ihr | logic op l r ihl ihr =>
    have left := ihl fun i member => same i (List.mem_append_left _ member)
    have right := ihr fun i member => same i (List.mem_append_right _ member)
    simp only [eval, left, right]

theorem holds_congr {e : Expr} {x y : Nat → Bool} (same : ∀ i ∈ e.reads, x i = y i) :
    e.holds x = e.holds y := by
  rw [holds, eval_congr same, holds]

theorem get_support {e : Expr} {support : Mask} (found : e.support = .ok support) (i : Nat) :
    support.get i = true ↔ i ∈ e.reads := by
  have general : ∀ (reads : List Nat) (m : Mask),
      reads.foldlM (fun m i => do
        let _ ← Checked.add i 1
        return m.insert i) m = .ok support →
      (support.get i = true ↔ i ∈ reads ∨ m.get i = true) := by
    intro reads
    induction reads with
    | nil =>
      intro m found
      cases found
      simp
    | cons read rest ih =>
      intro m found
      rw [List.foldlM_cons, bind_eq_ok] at found
      obtain ⟨_, inserted, found⟩ := found
      obtain ⟨_, -, inserted⟩ := bind_eq_ok.1 inserted
      rw [ih _ found, ← pure_eq_ok.1 inserted, Mask.get_insert]
      simp [or_assoc, or_left_comm]
  simpa [Mask.empty] using general e.reads Mask.empty found

end FsmFabric.Expr
