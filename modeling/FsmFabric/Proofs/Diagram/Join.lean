import FsmFabric.Proofs.Diagram.Effects

/-!
# Closing a branch

Closing a branch compares the leaves of its sides but not their tests. So it keeps what the diagram
says, unless the dropped side has the same leaves under other tests and is the one that is taken.
-/

namespace FsmFabric

/-- What a diagram says in a state for given inputs: every output bit, and the target. -/
def Diagram.response (d : Diagram) (state : Nat) (x : Nat → Bool) : (Nat → Bool) × Option Nat :=
  ((d.walk state x).1.get, (d.walk state x).2)

def Builder.response (b : Builder) (state : Nat) (x : Nat → Bool) : (Nat → Bool) × Option Nat :=
  b.diagram.response state x

/-- The sides of the innermost branch have the same leaves, so that closing it drops the hidden one;
yet the hidden one is taken, and says something else. -/
def Draft.Loses (d : Draft) (state : Nat) (x : Nat → Bool) : Prop :=
  ∃ s outer test yes no below below',
    d.scopes = s :: outer ∧
    d.nodes.get s.branch = .ok (.branch test yes no) ∧
    d.nodes.expand yes = .ok below ∧ d.nodes.expand no = .ok below' ∧
    below.diagram.sameLeaves below'.diagram = true ∧
    Visible { d with scopes := outer } state x ∧
    test.holds state x ≠ s.visitYes ∧
    below.diagram.response state x ≠ below'.diagram.response state x

namespace Draft.Shows

variable {d : Draft} {focus : Subtree} {f : Frame} {rest : List Frame}

/-- What closing a branch loses, said of the focus and the hidden side. -/
theorem loses_iff (shown : d.Shows focus (f :: rest)) {state : Nat} {x : Nat → Bool} :
    d.Loses state x ↔ focus.diagram.sameLeaves f.hidden.diagram = true ∧
      (∀ g ∈ rest, g.Admits state x) ∧ ¬ f.Admits state x ∧
      focus.diagram.response state x ≠ f.hidden.diagram.response state x := by
  have top := shown.framed.1
  have expandFocus := shown.expand_current
  rw [shown.current] at expandFocus
  have expandHidden := shown.expand_hidden
  have outer : Visible { d with scopes := rest.map Frame.scope } state x ↔
      ∀ g ∈ rest, g.Admits state x := shown.closed.visible_iff
  have scopes := shown.scopes
  obtain ⟨id, test, visitYes, hidden⟩ := f
  -- the focus is the yes side or the no side of the branch, as the recorded side says
  cases visitYes
  · rw [Diagram.sameLeaves_comm, ne_comm]
    constructor
    · rintro ⟨s, outer', test', yes, no, below, below', found, node, left, right, same, visible,
        taken, differ⟩
      cases scopes.symm.trans found
      cases top.symm.trans node
      cases expandHidden.symm.trans left
      cases expandFocus.symm.trans right
      exact ⟨same, outer.1 visible, taken, differ⟩
    · rintro ⟨same, visible, taken, differ⟩
      exact ⟨_, _, _, _, _, _, _, scopes, top, expandHidden, expandFocus, same, outer.2 visible,
        taken, differ⟩
  · constructor
    · rintro ⟨s, outer', test', yes, no, below, below', found, node, left, right, same, visible,
        taken, differ⟩
      cases scopes.symm.trans found
      cases top.symm.trans node
      cases expandFocus.symm.trans left
      cases expandHidden.symm.trans right
      exact ⟨same, outer.1 visible, taken, differ⟩
    · rintro ⟨same, visible, taken, differ⟩
      exact ⟨_, _, _, _, _, _, _, scopes, top, expandFocus, expandHidden, same, outer.2 visible,
        taken, differ⟩

end Draft.Shows

theorem response_congr {d d' : Diagram} {state : Nat} {x : Nat → Bool}
    (same : d.walk state x = d'.walk state x) : d.response state x = d'.response state x := by
  rw [Diagram.response, same, Diagram.response]

namespace Builder

variable {b b' : Builder}

/-- Closing a branch keeps what the diagram says exactly where it loses nothing. -/
theorem join_response_eq_iff {p : Expr → Prop} (reached : Reachable p b)
    (joined : b.join = .ok b') (state : Nat) (x : Nat → Bool) :
    b'.response state x = b.response state x ↔ ¬ b.draft.Loses state x := by
  obtain ⟨focus, frames, asks⟩ := (reached.mono fun e _ => trivial).exists_asks fun _ _ => trivial
  have shown := asks.shown
  obtain ⟨d, drafted, rfl⟩ := join_eq_ok.1 joined
  cases frames with
  | nil => cases (Draft.join_of_scopes_nil shown.scopes).symm.trans drafted
  | cons f rest =>
    have shown' := asks.joined drafted
    rw [shown.loses_iff]
    change d.diagram.response state x = b.draft.diagram.response state x ↔ _
    rw [shown.diagram]
    split at shown'
    · next same =>
      rw [shown'.shown.diagram]
      have both : (plug (f :: rest) focus) = plug rest (f.close focus) := rfl
      rw [both]
      by_cases outer : ∀ g ∈ rest, g.Admits state x
      · by_cases inner : f.Admits state x
        · refine iff_of_true (response_congr (walk_plug_congr fun _ => ?_))
            fun lost => lost.2.2.1 inner
          rw [f.walk_close, if_pos inner]
        · have before : (plug rest (f.close focus)).diagram.response state x =
              f.hidden.diagram.response state x :=
            response_congr (by rw [walk_plug_of_admits outer, f.walk_close, if_neg inner])
          rw [before, response_congr (walk_plug_of_admits outer focus)]
          exact ⟨fun equal lost => lost.2.2.2 equal,
            fun kept => by_contra fun differ => kept ⟨same, outer, inner, differ⟩⟩
      · exact iff_of_true (response_congr (walk_plug_congr fun admits => absurd admits outer))
          fun lost => outer lost.2.1
    · next differs =>
      rw [shown'.shown.diagram]
      exact ⟨fun _ lost => differs lost.1, fun _ => rfl⟩

/-- Two conditionals on different inputs, with the same leaves, on the sides of a third one: input
1 decides on the yes side and input 2 on the no side. -/
def twoConditionals : Result Builder :=
  fresh.split (.input 0) >>= (·.split (.input 1)) >>= (·.setTarget (some 1)) >>= (·.join) >>=
    (·.visit false) >>= (·.split (.input 2)) >>= (·.setTarget (some 1)) >>= (·.join)

theorem reachable_twoConditionals {b : Builder} (built : twoConditionals = .ok b) :
    Reachable (·.isCoerced) b := by
  obtain ⟨b₇, built, inner'⟩ := bind_eq_ok.1 built
  obtain ⟨b₆, built, target'⟩ := bind_eq_ok.1 built
  obtain ⟨b₅, built, nested'⟩ := bind_eq_ok.1 built
  obtain ⟨b₄, built, visited⟩ := bind_eq_ok.1 built
  obtain ⟨b₃, built, inner⟩ := bind_eq_ok.1 built
  obtain ⟨b₂, built, target⟩ := bind_eq_ok.1 built
  obtain ⟨b₁, opened, nested⟩ := bind_eq_ok.1 built
  have first : Reachable (·.isCoerced) b₁ := Reachable.fresh.split rfl opened
  have left := (((first.split rfl nested).setTarget target).join inner).visit visited
  exact ((left.split rfl nested').setTarget target').join inner'

/-- Closing the third conditional loses what input 1 decides. -/
theorem join_loses_condition :
    ∃ b b' state x, Reachable (·.isCoerced) b ∧ b.join = .ok b' ∧
      b'.response state x ≠ b.response state x := by
  obtain ⟨b, b', built, joined, differ⟩ : ∃ b b', twoConditionals = .ok b ∧ b.join = .ok b' ∧
      (b'.walk 0 (· != 2)).2 ≠ (b.walk 0 (· != 2)).2 :=
    ⟨_, _, rfl, rfl, by decide +kernel⟩
  exact ⟨b, b', 0, (· != 2), reachable_twoConditionals built, joined,
    fun same => differ (Prod.mk.inj same).2⟩

theorem join_response_eq_iff_twoConditionals :
    ∃ b b', twoConditionals = .ok b ∧ b.join = .ok b' ∧
      ∀ state x, b'.response state x = b.response state x ↔ ¬ b.draft.Loses state x := by
  obtain ⟨b, b', built, joined⟩ : ∃ b b', twoConditionals = .ok b ∧ b.join = .ok b' :=
    ⟨_, _, rfl, rfl⟩
  exact ⟨b, b', built, joined, join_response_eq_iff (reachable_twoConditionals built) joined⟩

end Builder

end FsmFabric
