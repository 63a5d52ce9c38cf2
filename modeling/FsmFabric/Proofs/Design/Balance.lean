import FsmFabric.Proofs.Design.Conditional
import Mathlib.Data.List.Infix

/-!
# Which designs can be replayed

Whether a design is accepted is a question about its events alone: which scopes are open before an
event, which states were declared before it, and which control bits it names. The diagram under
construction has one open branch for each open scope, so its own complaints about missing branches
are never heard.
-/

namespace FsmFabric

namespace Event

/-- The scopes that are open behind an event, given by their places, innermost first. -/
def scopesAfter (scopes : List (Option Position)) : Event → List (Option Position)
  | split _ place | splitState _ place => place :: scopes
  | join => scopes.tail
  | _ => scopes

def NeedsScope : Event → Prop
  | visit _ | join => True
  | _ => False

end Event

namespace Design

def openScopes (events : List Event) : List (Option Position) :=
  events.foldl Event.scopesAfter []

def declared (events : List Event) : List Nat := events.filterMap Event.declares?

/-- An event that cannot stand behind others, and why. -/
inductive Offence (before : List Event) : Event → Error → Prop
  | strayElse {yes : Bool} (closed : openScopes before = []) :
      Offence before (.visit yes) (.script .strayElse none)
  | strayJoin (closed : openScopes before = []) : Offence before .join (.script .strayJoin none)
  | declaredTwice {state : Nat} {place : Option Position} (again : state ∈ declared before) :
      Offence before (.splitState state place)
        (.duplicateState state (place.getD Position.unknown))
  | controlBit {bit : Nat} {value : Bool} (past : 32 ≤ bit) :
      Offence before (.assign (.control bit) value) (.internal (.controlBit bit))

def Inoffensive (events : List Event) : Prop :=
  ∀ before event error, before ++ [event] <+: events → ¬ Offence before event error

/-- Scopes are opened before they are changed or closed and are all closed at the end, every state
is declared once, and control bits lie in the register. -/
structure Balanced (events : List Event) : Prop where
  inside : ∀ before event, before ++ [event] <+: events → event.NeedsScope → openScopes before ≠ []
  closed : openScopes events = []
  once : (declared events).Nodup
  control : ∀ bit value, .assign (.control bit) value ∈ events → bit < 32

/-- Why a design is refused: the first event that offends, or the innermost scope left open. -/
inductive Refusal (d : Design) : Error → Prop
  | offence {before : List Event} {event : Event} {error : Error}
      (here : before ++ [event] <+: d.events) (first : Inoffensive before)
      (offence : Offence before event error) : Refusal d error
  | unclosed {place : Option Position} {rest : List (Option Position)}
      (inoffensive : Inoffensive d.events) (left : openScopes d.events = place :: rest) :
      Refusal d (.script (.unclosed (rest.length + 1) d.module) place)

/-! ## Events in order -/

@[simp] theorem openScopes_concat (events : List Event) (event : Event) :
    openScopes (events ++ [event]) = event.scopesAfter (openScopes events) := by
  simp [openScopes]

@[simp] theorem declared_concat (events : List Event) (event : Event) :
    declared (events ++ [event]) = declared events ++ event.declares?.toList := by
  cases found : event.declares? <;> simp [declared, found]

theorem inoffensive_nil : Inoffensive [] := by
  intro before event error here
  simp at here

theorem inoffensive_concat {events : List Event} {event : Event} :
    Inoffensive (events ++ [event]) ↔
      Inoffensive events ∧ ∀ error, ¬ Offence events event error := by
  constructor
  · intro all
    refine ⟨fun before other error here => all before other error ?_, fun error => ?_⟩
    · exact here.trans (List.prefix_append events [event])
    · exact all events event error (List.prefix_refl _)
  · rintro ⟨earlier, last⟩ before other error here
    rcases List.prefix_concat_iff.1 here with same | here
    · obtain ⟨rfl, single⟩ := List.append_inj' same rfl
      obtain rfl := List.singleton_inj.1 single
      exact last error
    · exact earlier before other error here

theorem inoffensive_or_exists_first (events : List Event) :
    Inoffensive events ∨ ∃ before event error, before ++ [event] <+: events ∧
      Inoffensive before ∧ Offence before event error := by
  induction events using List.reverseRecOn with
  | nil => exact .inl inoffensive_nil
  | append_singleton events event ih =>
    rcases ih with inoffensive | ⟨before, other, error, here, first⟩
    · by_cases offends : ∃ error, Offence events event error
      · obtain ⟨error, offence⟩ := offends
        exact .inr ⟨events, event, error, List.prefix_refl _, inoffensive, offence⟩
      · exact .inl (inoffensive_concat.2 ⟨inoffensive, not_exists.1 offends⟩)
    · exact .inr ⟨before, other, error, here.trans (List.prefix_append _ _), first⟩

theorem Inoffensive.nodup_declared {events : List Event} (inoffensive : Inoffensive events) :
    (declared events).Nodup := by
  induction events using List.reverseRecOn with
  | nil => exact List.nodup_nil
  | append_singleton events event ih =>
    obtain ⟨earlier, fine⟩ := inoffensive_concat.1 inoffensive
    rw [declared_concat]
    cases event with
    | splitState state place =>
      refine List.nodup_append.2 ⟨ih earlier, List.nodup_singleton _, ?_⟩
      intro a old b new same
      obtain rfl : b = state := by simpa [Event.declares?] using new
      exact fine _ (.declaredTwice (same ▸ old))
    | _ => simpa [Event.declares?] using ih earlier

theorem balanced_iff {events : List Event} :
    Balanced events ↔ Inoffensive events ∧ openScopes events = [] := by
  constructor
  · intro balanced
    refine ⟨fun before event error here offence => ?_, balanced.closed⟩
    cases offence with
    | strayElse closed => exact balanced.inside before _ here trivial closed
    | strayJoin closed => exact balanced.inside before _ here trivial closed
    | @declaredTwice state place again =>
      have once : (declared (before ++ [.splitState state place])).Nodup :=
        (here.sublist.filterMap _).nodup balanced.once
      rw [declared_concat] at once
      exact (List.nodup_append.1 once).2.2 state again state (by simp [Event.declares?]) rfl
    | @controlBit bit value past =>
      have := balanced.control bit value (here.subset (by simp))
      omega
  · rintro ⟨inoffensive, closed⟩
    refine ⟨fun before event here needs none => ?_, closed, inoffensive.nodup_declared,
      fun bit value member => ?_⟩
    · cases event with
      | visit yes => exact inoffensive before _ _ here (.strayElse none)
      | join => exact inoffensive before _ _ here (.strayJoin none)
      | _ => exact needs
    · obtain ⟨before, after, rfl⟩ := List.append_of_mem member
      by_contra past
      have here : before ++ [.assign (.control bit) value] <+:
          before ++ .assign (.control bit) value :: after := ⟨after, by simp⟩
      exact inoffensive before _ _ here (.controlBit (Nat.le_of_not_lt past))

end Design

/-! ## The diagram under construction -/

theorem Draft.Shows.exists_guard {d : Draft} {focus : Subtree} {frames : List Frame}
    (shown : d.Shows focus frames) : ∃ guard, d.pathGuard = .ok guard := by
  have conditions := openConditions_eq shown.framed
  rw [← shown.scopes] at conditions
  unfold pathGuard
  rw [conditions]
  cases frames.filterMap Frame.condition? with
  | nil => exact ⟨_, rfl⟩
  | cons e rest => exact ⟨_, rfl⟩

namespace Design

/-- A builder has one open branch for each scope that events left open, and their states. -/
structure Mirrors (b : Builder) (before : List Event) : Prop where
  shown : ∃ focus frames, b.draft.Shows focus frames ∧ frames.length = (openScopes before).length
  states : b.states = declared before

variable {b : Builder} {before : List Event} {event : Event}

theorem mirrors_fresh : Mirrors Builder.fresh [] :=
  ⟨⟨_, [], Draft.fresh_shows, rfl⟩, rfl⟩

/-- An event that does not offend is applied. -/
theorem Mirrors.exists_apply (mirrors : Mirrors b before)
    (fine : ∀ error, ¬ Offence before event error)
    (small : ∀ bit value, event = .assign (.output bit) value → bit + 1 < Checked.limit) :
    ∃ b', b.apply event = .ok b' ∧ ∃ focus frames, b'.draft.Shows focus frames ∧
      frames.length = (event.scopesAfter (openScopes before)).length := by
  obtain ⟨focus, frames, shown, count⟩ := mirrors.shown
  cases event with
  | split condition place =>
    obtain ⟨d, id, copy, done, -, shown'⟩ := shown.exists_split (.condition condition.simplify)
    exact ⟨_, Builder.split_eq_ok.2 ⟨d, done, rfl⟩, focus, _, shown', congrArg (· + 1) count⟩
  | visit yes =>
    have some : openScopes before ≠ [] := fun none => fine _ (.strayElse none)
    cases frames with
    | nil => exact absurd (List.length_eq_zero_iff.1 count.symm) some
    | cons f rest =>
      obtain ⟨d, done, shown'⟩ := shown.exists_visit yes
      refine ⟨_, Builder.visit_eq_ok.2 ⟨d, done, rfl⟩, ?_⟩
      split at shown'
      · exact ⟨_, _, shown', count⟩
      · exact ⟨_, _, shown', count⟩
  | join =>
    have some : openScopes before ≠ [] := fun none => fine _ (.strayJoin none)
    cases frames with
    | nil => exact absurd (List.length_eq_zero_iff.1 count.symm) some
    | cons f rest =>
      obtain ⟨d, done, shown'⟩ := shown.exists_join
      have count' : rest.length = (openScopes before).tail.length := by
        rw [List.length_tail, ← count, List.length_cons, Nat.add_sub_cancel]
      refine ⟨_, Builder.join_eq_ok.2 ⟨d, done, rfl⟩, ?_⟩
      split at shown'
      · exact ⟨_, _, shown', count'⟩
      · exact ⟨_, _, shown', count'⟩
  | assign destination value =>
    cases destination with
    | output bit =>
      obtain ⟨d, done, shown'⟩ :=
        shown.exists_changeLeaves fun leaf => (leaf.1.put bit value, leaf.2)
      exact ⟨_, Builder.assign_output_eq_ok.2 ⟨small bit value rfl, d, done, rfl⟩, _, _, shown',
        count⟩
    | conditionalOutput bit =>
      obtain ⟨guard, found⟩ := shown.exists_guard
      have done : b.assign (.conditionalOutput bit) value =
          .ok (b.driveConditional bit guard value) :=
        bind_eq_ok.2 ⟨guard, liftM_eq_ok.2 found, rfl⟩
      have same := (Builder.kept_of_assign done).2.resolve_left (by rintro ⟨bit, ⟨⟩⟩)
      exact ⟨_, done, focus, frames, same.symm ▸ shown, count⟩
    | control bit =>
      have inside : bit < 32 := Nat.lt_of_not_le fun past => fine _ (.controlBit past)
      exact ⟨_, if_pos inside, focus, frames, shown, count⟩
  | setTarget state =>
    obtain ⟨d, done, shown'⟩ := shown.exists_changeLeaves fun leaf => (leaf.1, state)
    exact ⟨_, Builder.setTarget_eq_ok.2 ⟨d, done, rfl⟩, _, _, shown', count⟩
  | splitState state place =>
    have new : state ∉ b.states := fun old => fine _ (.declaredTwice (mirrors.states ▸ old))
    obtain ⟨d, id, copy, done, -, shown'⟩ := shown.exists_split (.state state)
    exact ⟨_, Builder.splitState_eq_ok.2 ⟨new, d, done, rfl⟩, focus, _, shown',
      congrArg (· + 1) count⟩
  | openDefault place => exact ⟨_, rfl, focus, frames, shown, count⟩
  | enterSwitch name => exact ⟨_, rfl, focus, frames, shown, count⟩
  | leaveSwitch => exact ⟨_, rfl, focus, frames, shown, count⟩

theorem track_openScopes (fine : ∀ error, ¬ Offence before event error) :
    track (openScopes before) event = .ok (openScopes (before ++ [event])) := by
  rw [openScopes_concat]
  cases event with
  | visit yes =>
    have some : openScopes before ≠ [] := fun none => fine _ (.strayElse none)
    exact if_neg (by simpa using some)
  | join =>
    cases left : openScopes before with
    | nil => exact absurd (.strayJoin left) (fine _)
    | cons place rest => rfl
  | _ => rfl

theorem Mirrors.step (mirrors : Mirrors b before) (fine : ∀ error, ¬ Offence before event error)
    (small : ∀ bit value, event = .assign (.output bit) value → bit + 1 < Checked.limit)
    (rest : List Event) :
    ∃ b', Mirrors b' (before ++ [event]) ∧
      replayFrom b (openScopes before) (event :: rest) =
        replayFrom b' (openScopes (before ++ [event])) rest := by
  obtain ⟨b', done, shown⟩ := mirrors.exists_apply fine small
  refine ⟨b', ⟨by rwa [openScopes_concat], ?_⟩, ?_⟩
  · rw [Builder.states_of_apply done, mirrors.states, declared_concat]
  · rw [replayFrom, track_openScopes fine]
    simp only [done, bind, Except.bind]

/-- Events that do not offend are applied one after the other. -/
theorem Mirrors.run (mirrors : Mirrors b before) {events : List Event}
    (inoffensive : Inoffensive (before ++ events))
    (small : ∀ bit value, .assign (.output bit) value ∈ events → bit + 1 < Checked.limit)
    (rest : List Event) :
    ∃ b', Mirrors b' (before ++ events) ∧
      replayFrom b (openScopes before) (events ++ rest) =
        replayFrom b' (openScopes (before ++ events)) rest := by
  induction events generalizing b before with
  | nil => exact ⟨b, by rwa [List.append_nil], by rw [List.append_nil, List.nil_append]⟩
  | cons event events ih =>
    rw [List.append_cons] at inoffensive ⊢
    have fine (error : Error) : ¬ Offence before event error :=
      inoffensive before event error (List.prefix_append _ events)
    obtain ⟨b₁, mirrors₁, first⟩ := mirrors.step fine
      (fun bit value same => small bit value (same ▸ List.mem_cons_self)) (events ++ rest)
    obtain ⟨b₂, mirrors₂, later⟩ := ih mirrors₁ inoffensive fun bit value member =>
      small bit value (List.mem_cons_of_mem _ member)
    exact ⟨b₂, mirrors₂, first.trans later⟩

/-- An event that offends is refused. -/
theorem Mirrors.replayFrom_of_offence (mirrors : Mirrors b before) {error : Error}
    (offence : Offence before event error) (rest : List Event) :
    replayFrom b (openScopes before) (event :: rest) = .error (.refused error) := by
  cases offence with
  | strayElse closed =>
    rw [replayFrom, closed]
    rfl
  | strayJoin closed =>
    rw [replayFrom, closed]
    rfl
  | @declaredTwice state place again =>
    have known : b.states.contains state = true := by
      rw [mirrors.states, List.contains_iff_mem]
      exact again
    have refused : b.apply (.splitState state place) =
        refuse (.duplicateState state (place.getD Position.unknown)) := if_pos known
    rw [replayFrom]
    simp only [track, refused]
    rfl
  | @controlBit bit value past =>
    have refused : b.apply (.assign (.control bit) value) = refuse (.internal (.controlBit bit)) :=
      if_neg (Nat.not_lt.2 past)
    rw [replayFrom]
    simp only [track, refused]
    rfl

/-! ## Replaying -/

variable {d : Design}

theorem exists_replay (inoffensive : Inoffensive d.events)
    (small : ∀ bit value, .assign (.output bit) value ∈ d.events → bit + 1 < Checked.limit) :
    ∃ b, replayFrom Builder.fresh [] d.events = .ok (b, openScopes d.events) := by
  obtain ⟨b, -, done⟩ := mirrors_fresh.run inoffensive small []
  rw [List.append_nil] at done
  exact ⟨b, done⟩

theorem Refusal.replay_eq {error : Error} (refusal : d.Refusal error)
    (small : ∀ bit value, .assign (.output bit) value ∈ d.events → bit + 1 < Checked.limit) :
    d.replay = .error (.refused error) := by
  cases refusal with
  | @offence before event error here first offence =>
    obtain ⟨after, split⟩ := here
    rw [List.append_assoc, List.singleton_append] at split
    obtain ⟨b, mirrors, done⟩ := mirrors_fresh.run first (fun bit value member =>
      small bit value (split ▸ List.mem_append_left _ member)) (event :: after)
    have refused : replayFrom Builder.fresh [] d.events = .error (.refused error) := by
      rw [← split]
      exact done.trans (mirrors.replayFrom_of_offence offence after)
    rw [replay, refused]
    rfl
  | unclosed inoffensive left =>
    obtain ⟨b, done⟩ := exists_replay inoffensive small
    rw [replay, done, left]
    rfl

theorem balanced_or_refusal (d : Design) : Balanced d.events ∨ ∃ error, d.Refusal error := by
  rcases inoffensive_or_exists_first d.events with
    inoffensive | ⟨before, event, error, here, first, offence⟩
  · cases left : openScopes d.events with
    | nil => exact .inl (balanced_iff.2 ⟨inoffensive, left⟩)
    | cons place rest => exact .inr ⟨_, .unclosed inoffensive left⟩
  · exact .inr ⟨error, .offence here first offence⟩

/-- A design is accepted if and only if its events are balanced, and else refused for the first
event that offends or for the innermost scope left open. -/
theorem replay_accepts_balanced (d : Design)
    (small : ∀ bit value, .assign (.output bit) value ∈ d.events → bit + 1 < Checked.limit) :
    ((∃ b, d.replay = .ok b) ↔ Balanced d.events) ∧
      (∀ failure, d.replay = .error failure ↔ ∃ error, failure = .refused error ∧ d.Refusal error) ∧
      ∀ cause, d.replay = .error (.refused (.internal cause)) → ∃ bit, cause = .controlBit bit := by
  have accepted (balanced : Balanced d.events) : ∃ b, d.replay = .ok b := by
    obtain ⟨inoffensive, closed⟩ := balanced_iff.1 balanced
    obtain ⟨b, done⟩ := exists_replay inoffensive small
    exact ⟨b, replay_eq_ok.2 (closed ▸ done)⟩
  have refused {failure : Failure Error} (failed : d.replay = .error failure) :
      ∃ error, failure = .refused error ∧ d.Refusal error := by
    rcases d.balanced_or_refusal with balanced | ⟨error, refusal⟩
    · obtain ⟨b, done⟩ := accepted balanced
      cases done.symm.trans failed
    · have failed' := refusal.replay_eq small
      exact ⟨error, Except.error.inj (failed.symm.trans failed'), refusal⟩
  refine ⟨⟨fun ⟨b, done⟩ => ?_, accepted⟩, fun failure => ⟨refused, ?_⟩, fun cause failed => ?_⟩
  · rcases d.balanced_or_refusal with balanced | ⟨error, refusal⟩
    · exact balanced
    · cases done.symm.trans (refusal.replay_eq small)
  · rintro ⟨error, rfl, refusal⟩
    exact refusal.replay_eq small
  · obtain ⟨error, same, refusal⟩ := refused failed
    cases same
    cases refusal with
    | offence _ _ offence =>
      cases offence
      exact ⟨_, rfl⟩

/-- The arm of state 2 opens and closes on the no side of a conditional and then opens again. -/
def armTwice : Design where
  module := "twice"
  events := [
    .split (.inputs [0]) none,
    .assign (.output 0) true,
    .visit false,
    .splitState 2 (some ⟨"twice.sv", 4⟩),
    .join,
    .splitState 2 none,
    .visit true]

theorem replay_accepts_balanced_armTwice :
    (∀ bit value, .assign (.output bit) value ∈ armTwice.events → bit + 1 < Checked.limit) ∧
      armTwice.Refusal (.duplicateState 2 ⟨"", 0⟩) ∧
      armTwice.replay = .error (.refused (.duplicateState 2 ⟨"", 0⟩)) ∧
      ¬ Balanced armTwice.events := by
  have small : ∀ bit value, .assign (.output bit) value ∈ armTwice.events →
      bit + 1 < Checked.limit := by
    intro bit value member
    obtain ⟨rfl, rfl⟩ : bit = 0 ∧ value = true := by simpa [armTwice] using member
    decide
  obtain ⟨accepts, refuses, -⟩ := replay_accepts_balanced armTwice small
  have refused : armTwice.replay = .error (.refused (.duplicateState 2 ⟨"", 0⟩)) := rfl
  obtain ⟨error, same, refusal⟩ := (refuses _).1 refused
  cases same
  refine ⟨small, refusal, refused, fun balanced => ?_⟩
  obtain ⟨b, done⟩ := accepts.2 balanced
  cases done.symm.trans refused

end Design

end FsmFabric
