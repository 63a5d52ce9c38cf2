import FsmFabric.Diagram.Builder
import FsmFabric.Proofs.Diagram.Focus

/-!
# Builders that operations lead to

Every builder reached from the fresh one by its operations shows a focus below open branches, so
each operation does to the diagram what `Draft.Shows` says. The effects are stated for the leaf
that is reached in a state for given inputs.
-/

namespace FsmFabric

namespace Frame

def Admits (f : Frame) (state : Nat) (x : Nat → Bool) : Prop := f.test.holds state x = f.visitYes

instance (f : Frame) (state : Nat) (x : Nat → Bool) : Decidable (f.Admits state x) :=
  inferInstanceAs (Decidable (_ = _))

theorem walk_close (f : Frame) (visible : Subtree) (state : Nat) (x : Nat → Bool) :
    (f.close visible).diagram.walk state x =
      if f.Admits state x then visible.diagram.walk state x
      else f.hidden.diagram.walk state x := by
  obtain ⟨id, test, visitYes, hidden⟩ := f
  cases visitYes <;> cases taken : test.holds state x <;>
    simp [close, Admits, Subtree.diagram, Diagram.walk, taken]

end Frame

theorem walk_plug_of_admits {frames : List Frame} {state : Nat} {x : Nat → Bool}
    (admits : ∀ f ∈ frames, f.Admits state x) (t : Subtree) :
    (plug frames t).diagram.walk state x = t.diagram.walk state x := by
  induction frames generalizing t with
  | nil => rfl
  | cons f rest ih =>
    rw [plug, List.foldl_cons, ← plug, ih fun g member => admits g (List.mem_cons_of_mem _ member),
      f.walk_close, if_pos (admits f List.mem_cons_self)]

theorem walk_plug_congr {frames : List Frame} {state : Nat} {x : Nat → Bool} {t u : Subtree}
    (same : (∀ f ∈ frames, f.Admits state x) → t.diagram.walk state x = u.diagram.walk state x) :
    (plug frames t).diagram.walk state x = (plug frames u).diagram.walk state x := by
  induction frames generalizing t u with
  | nil => exact same fun f member => nomatch member
  | cons f rest ih =>
    refine ih fun outer => ?_
    rw [f.walk_close, f.walk_close]
    split
    · next inner => exact same (List.forall_mem_cons.2 ⟨inner, outer⟩)
    · rfl

theorem Subtree.diagram_mapLeaves (change : Mask × Option Nat → Mask × Option Nat) (t : Subtree) :
    (t.mapLeaves change).diagram = t.diagram.mapLeaves change := by
  induction t with
  | leaf => rfl
  | branch id test yes no ihy ihn => simp only [mapLeaves, diagram, Diagram.mapLeaves, ihy, ihn]

theorem Frame.meets_close {p : Expr → Prop} {f : Frame} {visible : Subtree}
    (inner : visible.diagram.Meets p) (test : f.test.Meets p) (hidden : f.hidden.diagram.Meets p) :
    (f.close visible).diagram.Meets p := by
  unfold close
  split
  · exact ⟨test, inner, hidden⟩
  · exact ⟨test, hidden, inner⟩

namespace Draft

/-- A draft shows a focus below open branches, with conditions that all meet a requirement. -/
structure Asks (p : Expr → Prop) (d : Draft) (focus : Subtree) (frames : List Frame) : Prop where
  shown : d.Shows focus frames
  focus : focus.diagram.Meets p
  frames : ∀ f ∈ frames, f.test.Meets p ∧ f.hidden.diagram.Meets p

namespace Asks

variable {p : Expr → Prop} {d d' : Draft} {focus : Subtree} {frames : List Frame}

theorem opened (asks : d.Asks p focus frames) (closed : ∀ e, p e → p e.simplify) {test : Test}
    (done : d.split test = .ok d') (meets : test.Meets p) :
    ∃ id copy, copy.diagram = focus.diagram.simplify ∧
      d'.Asks p focus (⟨id, test, true, copy⟩ :: frames) := by
  obtain ⟨d₁, id, copy, done₁, meaning, shown⟩ := asks.shown.exists_split test
  obtain rfl : d' = d₁ := Except.ok.inj (done.symm.trans done₁)
  refine ⟨id, copy, meaning, shown, asks.focus,
    List.forall_mem_cons.2 ⟨⟨meets, ?_⟩, asks.frames⟩⟩
  exact meaning ▸ asks.focus.simplify closed

theorem changed (asks : d.Asks p focus frames) {change : Mask × Option Nat → Mask × Option Nat}
    (done : d.changeLeaves change = .ok d') : d'.Asks p (focus.mapLeaves change) frames := by
  obtain ⟨d₁, done₁, shown⟩ := asks.shown.exists_changeLeaves change
  obtain rfl : d' = d₁ := Except.ok.inj (done.symm.trans done₁)
  refine ⟨shown, ?_, asks.frames⟩
  rw [Subtree.diagram_mapLeaves]
  exact asks.focus.mapLeaves change

theorem visited {f : Frame} {rest : List Frame} (asks : d.Asks p focus (f :: rest)) {side : Bool}
    (done : d.visit side = .ok d') :
    if side = f.visitYes then d'.Asks p focus (f :: rest)
    else d'.Asks p f.hidden (f.flip focus :: rest) := by
  obtain ⟨d₁, done₁, shown⟩ := asks.shown.exists_visit side
  obtain rfl : d' = d₁ := Except.ok.inj (done.symm.trans done₁)
  obtain ⟨inner, outer⟩ := List.forall_mem_cons.1 asks.frames
  split
  · next same => exact ⟨by rwa [if_pos same] at shown, asks.focus, asks.frames⟩
  · next differs =>
    exact ⟨by rwa [if_neg differs] at shown, inner.2,
      List.forall_mem_cons.2 ⟨⟨inner.1, asks.focus⟩, outer⟩⟩

theorem joined {f : Frame} {rest : List Frame} (asks : d.Asks p focus (f :: rest))
    (done : d.join = .ok d') :
    if focus.diagram.sameLeaves f.hidden.diagram then d'.Asks p focus rest
    else d'.Asks p (f.close focus) rest := by
  obtain ⟨d₁, done₁, shown⟩ := asks.shown.exists_join
  obtain rfl : d' = d₁ := Except.ok.inj (done.symm.trans done₁)
  obtain ⟨inner, outer⟩ := List.forall_mem_cons.1 asks.frames
  split
  · next same => exact ⟨by rwa [if_pos same] at shown, asks.focus, outer⟩
  · next differs =>
    exact ⟨by rwa [if_neg differs] at shown, Frame.meets_close asks.focus inner.1 inner.2, outer⟩

end Asks

theorem visit_of_scopes_nil {d : Draft} (none : d.scopes = []) (side : Bool) :
    d.visit side = refuse (.internal .strayElse) := by
  rw [visit, none]

theorem join_of_scopes_nil {d : Draft} (none : d.scopes = []) :
    d.join = refuse (.internal .strayJoin) := by
  rw [join, none]

end Draft

namespace Builder

def walk (b : Builder) (state : Nat) (x : Nat → Bool) : Mask × Option Nat :=
  b.diagram.walk state x

/-- The builders that operations lead to, if conditionals are opened only with conditions that meet
a requirement. An operation that fails leaves the builder as it was. -/
inductive Reachable (p : Expr → Prop) : Builder → Prop
  | fresh : Reachable p Builder.fresh
  | split {b b' : Builder} {condition : Expr} (before : Reachable p b) (meets : p condition)
      (done : b.split condition = .ok b') : Reachable p b'
  | visit {b b' : Builder} {yes : Bool} (before : Reachable p b)
      (done : b.visit yes = .ok b') : Reachable p b'
  | join {b b' : Builder} (before : Reachable p b) (done : b.join = .ok b') : Reachable p b'
  | assign {b b' : Builder} {destination : Destination} {value : Bool} (before : Reachable p b)
      (done : b.assign destination value = .ok b') : Reachable p b'
  | setTarget {b b' : Builder} {target : Option Nat} (before : Reachable p b)
      (done : b.setTarget target = .ok b') : Reachable p b'
  | splitState {b b' : Builder} {state : Nat} {place : Option Position} (before : Reachable p b)
      (done : b.splitState state place = .ok b') : Reachable p b'
  | openDefault {b : Builder} {place : Option Position} (before : Reachable p b) :
      Reachable p (b.openDefault place)
  | leaveSwitch {b : Builder} (before : Reachable p b) : Reachable p b.leaveSwitch

variable {p : Expr → Prop} {b b' : Builder}

theorem split_eq_ok {condition : Expr} :
    b.split condition = .ok b' ↔
      ∃ d, b.draft.split (.condition condition) = .ok d ∧ { b with draft := d } = b' := by
  simp only [split, bind_eq_ok, liftM_eq_ok, pure_eq_ok]

theorem visit_eq_ok {yes : Bool} :
    b.visit yes = .ok b' ↔ ∃ d, b.draft.visit yes = .ok d ∧ { b with draft := d } = b' := by
  simp only [visit, bind_eq_ok, pure_eq_ok]

theorem join_eq_ok :
    b.join = .ok b' ↔ ∃ d, b.draft.join = .ok d ∧ { b with draft := d } = b' := by
  simp only [join, bind_eq_ok, pure_eq_ok]

theorem setTarget_eq_ok {target : Option Nat} :
    b.setTarget target = .ok b' ↔
      ∃ d, b.draft.changeLeaves (fun leaf => (leaf.1, target)) = .ok d ∧
        { b with draft := d } = b' := by
  simp only [setTarget, bind_eq_ok, liftM_eq_ok, pure_eq_ok]

theorem assign_output_eq_ok {bit : Nat} {value : Bool} :
    b.assign (.output bit) value = .ok b' ↔
      bit + 1 < Checked.limit ∧
        ∃ d, b.draft.changeLeaves (fun leaf => (leaf.1.put bit value, leaf.2)) = .ok d ∧
          { b with draft := d } = b' := by
  simp only [assign, bind_eq_ok, liftM_eq_ok, Checked.add, Checked.within_eq_ok, pure_eq_ok]
  exact ⟨fun ⟨_, small, rest⟩ => ⟨small.1, rest⟩, fun ⟨small, rest⟩ => ⟨_, ⟨small, rfl⟩, rest⟩⟩

theorem splitState_eq_ok {state : Nat} {place : Option Position} :
    b.splitState state place = .ok b' ↔
      state ∉ b.states ∧
        ∃ d, b.draft.split (.state state) = .ok d ∧
          { b with
            arms := b.arms ++ [(state, b.shared.inherit place)]
            active := .declared b.arms.length
            draft := d } = b' := by
  rw [splitState]
  split
  · next declared =>
    simp [refuse, List.contains_iff_mem.1 declared]
  · next new =>
    rw [List.contains_iff_mem] at new
    simp only [new, not_false_eq_true, true_and, bind_eq_ok, liftM_eq_ok, pure_eq_ok]

theorem states_driveConditional (b : Builder) (bit : Nat) (guard : Expr) (value : Bool) :
    (b.driveConditional bit guard value).states = b.states := by
  unfold driveConditional
  split
  · refine List.ext_getElem? fun n => ?_
    simp only [states, List.getElem?_map, List.getElem?_modify, Option.map_eq_map, Option.map_map]
    refine congrArg (b.arms[n]?.map ·) (funext fun arm => ?_)
    simp only [Function.comp_apply]
    split <;> rfl
  · rfl
  · simp [states, Function.comp_def]

/-- An assignment declares no state, and it changes the draft only if it is one to an output. -/
theorem kept_of_assign {destination : Destination} {value : Bool}
    (done : b.assign destination value = .ok b') :
    b'.states = b.states ∧ ((∃ bit, destination = .output bit) ∨ b'.draft = b.draft) := by
  cases destination with
  | output bit =>
    obtain ⟨-, d, -, rfl⟩ := assign_output_eq_ok.1 done
    exact ⟨rfl, .inl ⟨bit, rfl⟩⟩
  | conditionalOutput bit =>
    simp only [assign, bind_eq_ok, pure_eq_ok] at done
    obtain ⟨guard, -, rfl⟩ := done
    refine ⟨states_driveConditional b bit guard value, .inr ?_⟩
    unfold driveConditional
    split <;> rfl
  | control bit =>
    simp only [assign] at done
    split at done
    · cases done
      exact ⟨rfl, .inr rfl⟩
    · cases done

theorem Reachable.mono {q : Expr → Prop} (reached : Reachable p b) (weaker : ∀ e, p e → q e) :
    Reachable q b := by
  induction reached with
  | fresh => exact .fresh
  | split _ meets done ih => exact ih.split (weaker _ meets) done
  | visit _ done ih => exact ih.visit done
  | join _ done ih => exact ih.join done
  | assign _ done ih => exact ih.assign done
  | setTarget _ done ih => exact ih.setTarget done
  | splitState _ done ih => exact ih.splitState done
  | openDefault _ ih => exact ih.openDefault
  | leaveSwitch _ ih => exact ih.leaveSwitch

/-- Every reachable builder shows a focus below open branches. -/
theorem Reachable.exists_asks (reached : Reachable p b) (closed : ∀ e, p e → p e.simplify) :
    ∃ focus frames, b.draft.Asks p focus frames := by
  induction reached with
  | fresh => exact ⟨_, [], Draft.fresh_shows, trivial, fun f member => nomatch member⟩
  | split _ meets done ih =>
    obtain ⟨focus, frames, asks⟩ := ih
    obtain ⟨d, drafted, rfl⟩ := split_eq_ok.1 done
    obtain ⟨id, copy, -, asks'⟩ := asks.opened closed drafted meets
    exact ⟨focus, _, asks'⟩
  | @visit b b' yes _ done ih =>
    obtain ⟨focus, frames, asks⟩ := ih
    obtain ⟨d, drafted, rfl⟩ := visit_eq_ok.1 done
    cases frames with
    | nil => cases (Draft.visit_of_scopes_nil asks.shown.scopes yes).symm.trans drafted
    | cons f rest =>
      have asks' := asks.visited drafted
      split at asks' <;> exact ⟨_, _, asks'⟩
  | join _ done ih =>
    obtain ⟨focus, frames, asks⟩ := ih
    obtain ⟨d, drafted, rfl⟩ := join_eq_ok.1 done
    cases frames with
    | nil => cases (Draft.join_of_scopes_nil asks.shown.scopes).symm.trans drafted
    | cons f rest =>
      have asks' := asks.joined drafted
      split at asks' <;> exact ⟨_, _, asks'⟩
  | assign _ done ih =>
    obtain ⟨focus, frames, asks⟩ := ih
    rcases (kept_of_assign done).2 with ⟨bit, rfl⟩ | same
    · obtain ⟨-, d, drafted, rfl⟩ := assign_output_eq_ok.1 done
      exact ⟨_, frames, asks.changed drafted⟩
    · exact ⟨focus, frames, same ▸ asks⟩
  | setTarget _ done ih =>
    obtain ⟨focus, frames, asks⟩ := ih
    obtain ⟨d, drafted, rfl⟩ := setTarget_eq_ok.1 done
    exact ⟨_, frames, asks.changed drafted⟩
  | splitState _ done ih =>
    obtain ⟨focus, frames, asks⟩ := ih
    obtain ⟨-, d, drafted, rfl⟩ := splitState_eq_ok.1 done
    obtain ⟨id, copy, -, asks'⟩ := asks.opened closed drafted trivial
    exact ⟨focus, _, asks'⟩
  | openDefault _ ih | leaveSwitch _ ih => exact ih

end Builder

end FsmFabric
