import FsmFabric.Proofs.Diagram.Reachable
import FsmFabric.Proofs.Expr.Support

/-!
# The guard of what is visible

The open conditionals of a draft, each with its visible side, say for which inputs an assignment
counts. `pathGuard` builds one condition out of them, and it holds for exactly these inputs.
-/

namespace FsmFabric

namespace Expr

/-- A coerced condition that holds for exactly the inputs in `p`. -/
structure Means (e : Expr) (p : (Nat → Bool) → Bool) : Prop where
  coerced : e.isCoerced = true
  isLogic : e.isLogic = true
  holds : ∀ x, e.holds x = p x

namespace Means

variable {a b e : Expr} {p q : (Nat → Bool) → Bool}

theorem eval (means : e.Means p) (x : Nat → Bool) : e.eval x = bit (p x) := by
  rw [eval_of_isLogic means.isLogic, means.holds]

theorem congr (means : e.Means p) (same : ∀ x, p x = q x) : e.Means q :=
  ⟨means.coerced, means.isLogic, fun x => (means.holds x).trans (same x)⟩

theorem simplify (means : e.Means p) : e.simplify.Means p := by
  have stands := simplify_standsFor means.coerced
  exact ⟨stands.coerced, stands.isLogic.trans means.isLogic,
    fun x => (stands.holds x).trans (means.holds x)⟩

theorem literal (value : Bool) : (literal value).Means fun _ => value :=
  ⟨rfl, rfl, holds_literal value⟩

theorem truth (coerced : e.isCoerced = true) : e.truth.Means e.holds :=
  ⟨isCoerced_truth coerced, isLogic_truth e, holds_truth e⟩

theorem negate (coerced : e.isCoerced = true) : e.negate.Means fun x => !e.holds x := by
  refine ⟨isCoerced_negate coerced, rfl, fun x => ?_⟩
  rw [Expr.negate, holds_logicNot, holds_truth]

theorem both (left : a.Means p) (right : b.Means q) : (a.both b).Means fun x => p x && q x := by
  refine ⟨isCoerced_logic_truth .and left.coerced right.coerced, rfl, fun x => ?_⟩
  rw [Expr.both, holds_logic, holds_truth, holds_truth, left.holds, right.holds, Connective.apply]

theorem either (left : a.Means p) (right : b.Means q) :
    (a.either b).Means fun x => p x || q x := by
  refine ⟨isCoerced_logic_truth .or left.coerced right.coerced, rfl, fun x => ?_⟩
  rw [Expr.either, holds_logic, holds_truth, holds_truth, left.holds, right.holds, Connective.apply]

theorem foldl_both (means : e.Means p) {rest : List Expr}
    (all : ∀ c ∈ rest, c.Means c.holds) :
    (rest.foldl Expr.both e).Means fun x => p x && rest.all fun c => c.holds x := by
  induction rest generalizing e p with
  | nil => exact means.congr fun x => (Bool.and_true _).symm
  | cons c rest ih =>
    obtain ⟨first, others⟩ := List.forall_mem_cons.1 all
    apply (ih (means.both first) others).congr
    intro x
    rw [List.all_cons, Bool.and_assoc]

end Means

end Expr

namespace Test

/-- Whether inputs may lead to one side of a test. The state says nothing about inputs. -/
def admits (x : Nat → Bool) (side : Bool) : Test → Bool
  | .state _ => true
  | condition expr => expr.holds x == side

theorem admits_simplify {test : Test} (coerced : test.Meets (·.isCoerced)) (x : Nat → Bool)
    (side : Bool) : test.simplify.admits x side = test.admits x side := by
  cases test with
  | state => rfl
  | condition expr => simp only [simplify, admits, (Expr.simplify_standsFor coerced).holds]

end Test

def Frame.condition? (f : Frame) : Option Expr :=
  match f.test with
  | .state _ => none
  | .condition e => some (if f.visitYes then e.simplify.truth else e.simplify.negate)

theorem Frame.means_of_condition? {f : Frame} (coerced : f.test.Meets (·.isCoerced)) {c : Expr}
    (found : f.condition? = some c) : c.Means fun x => f.test.admits x f.visitYes := by
  obtain ⟨id, test, visitYes, hidden⟩ := f
  cases test with
  | state => cases found
  | condition e =>
    have stands := Expr.simplify_standsFor coerced
    obtain rfl := Option.some.inj found
    cases visitYes with
    | true =>
      apply (Expr.Means.truth stands.coerced).congr
      intro x
      rw [stands.holds]
      exact (beq_true _).symm
    | false =>
      apply (Expr.Means.negate stands.coerced).congr
      intro x
      rw [stands.holds]
      exact (beq_false _).symm

theorem Frame.admits_of_condition?_eq_none {f : Frame} (none : f.condition? = none)
    (x : Nat → Bool) : f.test.admits x f.visitYes = true := by
  obtain ⟨id, test, visitYes, hidden⟩ := f
  cases test with
  | state => rfl
  | condition e => cases none

namespace Draft

theorem openConditions_eq {d : Draft} {child : NodeId} {frames : List Frame}
    (framed : Framed d.nodes child frames) :
    d.openConditions (frames.map Frame.scope) = .ok (frames.filterMap Frame.condition?) := by
  induction frames generalizing child with
  | nil => rfl
  | cons f rest ih =>
    obtain ⟨yes, no, found⟩ := framed.get List.mem_cons_self
    rw [List.map_cons, openConditions, Frame.scope, found]
    simp only [bind, Except.bind, ih framed.2.2]
    obtain ⟨id, test, visitYes, hidden⟩ := f
    cases test with
    | state => rfl
    | condition e => cases visitYes <;> rfl

/-- The guard holds where every open conditional leads to its visible side. -/
theorem Shows.exists_pathGuard {d : Draft} {focus : Subtree} {frames : List Frame}
    (shown : d.Shows focus frames) (coerced : ∀ f ∈ frames, f.test.Meets (·.isCoerced)) :
    ∃ guard, d.pathGuard = .ok guard ∧
      guard.Means fun x => frames.all fun f => f.test.admits x f.visitYes := by
  have conditions := openConditions_eq shown.framed
  rw [← shown.scopes] at conditions
  have means : ∀ c ∈ frames.filterMap Frame.condition?, c.Means c.holds := by
    intro c member
    obtain ⟨f, framed, found⟩ := List.mem_filterMap.1 member
    have meaning := Frame.means_of_condition? (coerced f framed) found
    exact meaning.congr fun x => (meaning.holds x).symm
  -- a branch on the state contributes nothing and admits everything
  have whole (x : Nat → Bool) : (frames.filterMap Frame.condition?).all (·.holds x) =
      frames.all fun f => f.test.admits x f.visitYes := by
    rw [Bool.eq_iff_iff, List.all_eq_true, List.all_eq_true]
    constructor
    · intro all f framed
      cases found : f.condition? with
      | none => exact Frame.admits_of_condition?_eq_none found x
      | some c =>
        rw [← (Frame.means_of_condition? (coerced f framed) found).holds x]
        exact all c (List.mem_filterMap.2 ⟨f, framed, found⟩)
    · intro all c member
      obtain ⟨f, framed, found⟩ := List.mem_filterMap.1 member
      rw [(Frame.means_of_condition? (coerced f framed) found).holds x]
      exact all f framed
  unfold pathGuard
  rw [conditions]
  revert means whole
  cases frames.filterMap Frame.condition? with
  | nil =>
    intro _ whole
    exact ⟨_, rfl, (Expr.Means.literal true).congr whole⟩
  | cons e rest =>
    intro means whole
    obtain ⟨first, others⟩ := List.forall_mem_cons.1 means
    exact ⟨_, rfl, (first.foldl_both others).congr whole⟩

end Draft

end FsmFabric
