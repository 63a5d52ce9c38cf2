import FsmFabric.Proofs.Compiler.Step

/-!
# Where a compiled machine rests

A state that takes several words can be left in its last word, when the transition behind the
tables of that word is taken. From there the guards of the earlier words are not asked any more.
Resting is harmless exactly if they never matter.
-/

namespace FsmFabric

open Transition

/-- The bits of an output that output field `n` of a word can show. -/
def WordLayout.shown (l : WordLayout) (n : Nat) (output : Mask) (bit : Nat) : Bool :=
  (l.field? .out n).any (fun field => bit < field.width) && output.get bit

namespace Placement

def stateOf (p : Placement) (word : Nat) : Option Nat := (p.entries[word]?).map StateEntry.id

/-- Two moves drive the same outputs and lead to words of the same state. -/
structure SameMove (p : Placement) (m m' : Move) : Prop where
  output : ∀ bit, m.output.get bit = m'.output.get bit
  state : p.stateOf m.word = p.stateOf m'.word

end Placement

/-- Wherever the fabric rests after inputs that keep the machine in a state, it goes on as from the
first word of the state. -/
def Fabric.RestsHarmlessly (f : Fabric) (image : Image) (p : Placement) (ts : List Transition)
    (state first : Nat) : Prop :=
  ∀ xs : List (Nat → Bool), (∀ x ∈ xs, ∃ t, firstMatch x ts = some t ∧ t.target = state) →
    ∀ word, f.restsIn image first xs = some word →
      ∀ x, Option.Rel p.SameMove (f.step image x word) (f.step image x first)

/-- The table, or the place behind all tables, where a transition of a state of `count` words
stands in its word. -/
def Fabric.placeOf (f : Fabric) (count i : Nat) : Nat :=
  if i = count * f.guards then f.guards else i % f.guards

/-- Some inputs take the transition that stands behind all tables of a state of `count` words. -/
def Fabric.ReachesBehind (f : Fabric) (ts : List Transition) (count : Nat) : Prop :=
  ∃ x t, Decides ts x (count * f.guards) t

/-- The last of `count` words decides all inputs as the whole state does. -/
def Fabric.LastWordSuffices (f : Fabric) (layout : WordLayout) (ts : List Transition)
    (count : Nat) : Prop :=
  ∀ x i t j u, Decides ts x i t → Decides (ts.drop ((count - 1) * f.guards)) x j u →
    t.target = u.target ∧
      ∀ bit, layout.shown (f.placeOf count i) t.output bit = layout.shown j u.output bit

def Fabric.lastWord (f : Fabric) (e : StateEntry) (first : Nat) : Nat :=
  first + ((e.chain f.guards).length - 1)

/-- A move that does what a transition at place `n` of a word says. Behind the tables the fabric
stays in the word `home`. -/
structure Placement.Answers (p : Placement) (f : Fabric) (layout : WordLayout) (home n : Nat)
    (t : Transition) (m : Move) : Prop where
  output : ∀ bit, m.output.get bit = layout.shown n t.output bit
  state : p.stateOf m.word = some t.target
  word : p.slots.find? t.target = some m.word ∨ m.word = home ∧ n = f.guards

theorem WordLayout.shown_eq {l : WordLayout} {n : Nat} {field : Field}
    (found : l.field? .out n = some field) (output : Mask) (bit : Nat) :
    (output.extract 0 field.width).get bit = l.shown n output bit := by
  simp [shown, found]

namespace Placement.Stands

variable {f : Fabric} {image : Image} {p : Placement} {e : StateEntry} {first : Nat}
  {x : Nat → Bool}

theorem answers_of_jump (stands : p.Stands f image e first) {home n slot : Nat} {t : Transition}
    {field : Field} (found : image.layout.field? .out n = some field)
    (target : p.slots.find? t.target = some slot) :
    p.Answers f image.layout home n t ⟨slot, t.output.extract 0 field.width⟩ := by
  obtain ⟨c, here, same⟩ := stands.consistent.first _ _ target
  exact ⟨WordLayout.shown_eq found t.output, by rw [stateOf, here, Option.map_some, same],
    .inl target⟩

/-- The last word of a state holds what is left of its transitions. -/
theorem exists_last (stands : p.Stands f image e first) :
    ∃ c, p.entries[f.lastWord e first]? = some c ∧ c.id = e.id ∧ c.isPartial = false ∧
      c.fits f.guards = true ∧
      c.transitions = e.transitions.drop (((e.chain f.guards).length - 1) * f.guards) ∧
      ((e.chain f.guards).length - 1) * f.guards < e.transitions.length := by
  obtain ⟨t, last, -⟩ := stands.total
  have some : e.transitions ≠ [] := by
    rintro empty
    rw [empty] at last
    cases last
  obtain ⟨c, here, id, fits, whole, rest⟩ :=
    StateEntry.exists_last stands.pos le_rfl stands.whole some
  exact ⟨c, stands.places.chain _ c here, id, whole, fits, rest⟩

/-- The fabric answers from the last word, if it can see that control does not go on. -/
theorem answers_of_rest (stands : p.Stands f image e first) {t : Transition} {field : Field}
    (found : image.layout.field? .out f.guards = some field) (stays : t.target = e.id) :
    p.Answers f image.layout (f.lastWord e first) f.guards t
      ⟨f.lastWord e first, t.output.extract 0 field.width⟩ := by
  obtain ⟨c, here, id, -⟩ := stands.exists_last
  refine ⟨WordLayout.shown_eq found t.output, ?_, .inr ⟨rfl, rfl⟩⟩
  rw [stateOf, here, Option.map_some, id, stays]

/-- A step from the first word. -/
theorem answers_first (stands : p.Stands f image e first) {i : Nat} {t : Transition}
    (decides : Decides e.transitions x i t) :
    (∃ m, f.step image x first = some m ∧ p.Answers f image.layout (f.lastWord e first)
      (f.placeOf (e.chain f.guards).length i) t m) ∨
    f.step image x first = none ∧ image.layout.field? .inc 0 = none := by
  unfold Fabric.placeOf
  rcases stands.step decides with
    ⟨table, field, slot, found, target, step⟩ | ⟨behind, stays, field, found, step⟩
  · rw [if_neg table.ne]
    exact .inl ⟨_, step, stands.answers_of_jump found target⟩
  · rw [if_pos behind]
    cases flag : image.layout.field? .inc 0 with
    | none =>
      rw [flag] at step
      exact .inr ⟨step, rfl⟩
    | some inc =>
      rw [flag] at step
      exact .inl ⟨_, step, stands.answers_of_rest found stays⟩

/-- A step from the last word. -/
theorem answers_last (stands : p.Stands f image e first) {j : Nat} {u : Transition}
    (decides : Decides (e.transitions.drop (((e.chain f.guards).length - 1) * f.guards)) x j u) :
    (∃ m, f.step image x (f.lastWord e first) = some m ∧
      p.Answers f image.layout (f.lastWord e first) j u m) ∨
    f.step image x (f.lastWord e first) = none ∧ image.layout.field? .inc 0 = none := by
  obtain ⟨c, here, id, whole, fits, transitions, -⟩ := stands.exists_last
  obtain ⟨inside, carries⟩ := stands.carried _ c here
  obtain ⟨left, words⟩ : ∃ left, image.layout.words = left + 1 := ⟨_, (Nat.succ_pred (by omega)).symm⟩
  rw [← transitions] at decides
  rw [Fabric.step, words]
  obtain ⟨bound, -⟩ := List.getElem?_eq_some_iff.1 decides.found
  have short := StateEntry.length_le_of_fits fits
  rcases Nat.lt_or_eq_of_le (show j ≤ f.guards by omega) with table | rfl
  · obtain ⟨field, slot, found, target, step⟩ := carries.stepWithin_of_decides decides table left
    exact .inl ⟨_, step, stands.answers_of_jump found target⟩
  · obtain ⟨field, found, step⟩ := carries.stepWithin_of_rests whole decides left
    have stays := (carries.target_of_behind decides.found).trans id
    cases flag : image.layout.field? .inc 0 with
    | none =>
      rw [flag] at step
      exact .inr ⟨step, rfl⟩
    | some inc =>
      rw [flag] at step
      exact .inl ⟨_, step, stands.answers_of_rest found stays⟩

theorem exists_decides_last (stands : p.Stands f image e first) (x : Nat → Bool) :
    ∃ j u, Decides (e.transitions.drop (((e.chain f.guards).length - 1) * f.guards)) x j u := by
  obtain ⟨c, -, -, -, -, -, inside⟩ := stands.exists_last
  obtain ⟨t, last, guard⟩ := stands.total
  have member : (e.transitions.drop (((e.chain f.guards).length - 1) * f.guards)).getLast? =
      some t := by
    rw [List.getLast?_drop, if_neg (by omega), last]
  exact Decides.exists_of_mem (List.mem_of_getLast? member) (by rw [guard, Expr.holds_literal])

/-- A state of several words lies on a chip with a flag. -/
theorem exists_flag (stands : p.Stands f image e first) (several : 1 < (e.chain f.guards).length) :
    ∃ inc, image.layout.field? .inc 0 = some inc := by
  have here := List.getElem?_eq_getElem (Nat.zero_lt_of_lt several)
  have link := StateEntry.link_of_chainWithin stands.pos le_rfl stands.whole here
  exact (stands.carried _ _ (stands.places.chain 0 _ here)).2.continued (link.partly several).1

/-- The first or the last word of a state that stands in the image. -/
def Settled (p : Placement) (f : Fabric) (image : Image) (word : Nat) : Prop :=
  ∃ e first, p.Stands f image e first ∧ (word = first ∨ word = f.lastWord e first)

/-- From such a word a step leads to another one. -/
theorem Settled.step {word : Nat} {inc : Field} (settled : Settled p f image word)
    (declared : ∀ state slot, p.slots.find? state = some slot → Settled p f image slot)
    (flag : image.layout.field? .inc 0 = some inc) (x : Nat → Bool) :
    ∃ m, f.step image x word = some m ∧ Settled p f image m.word := by
  obtain ⟨e, first, stands, place⟩ := settled
  have settles {n : Nat} {t : Transition} {m : Move}
      (answers : p.Answers f image.layout (f.lastWord e first) n t m) : Settled p f image m.word := by
    rcases answers.word with target | ⟨last, -⟩
    · exact declared _ _ target
    · exact ⟨e, first, stands, .inr last⟩
  rcases place with rfl | rfl
  · obtain ⟨i, t, decides⟩ := stands.exists_decides x
    obtain ⟨m, step, answers⟩ := (stands.answers_first decides).resolve_right
      fun failed => nomatch flag.symm.trans failed.2
    exact ⟨m, step, settles answers⟩
  · obtain ⟨j, u, decides⟩ := stands.exists_decides_last x
    obtain ⟨m, step, answers⟩ := (stands.answers_last decides).resolve_right
      fun failed => nomatch flag.symm.trans failed.2
    exact ⟨m, step, settles answers⟩

theorem Settled.exists_restsIn {word : Nat} {inc : Field} (settled : Settled p f image word)
    (declared : ∀ state slot, p.slots.find? state = some slot → Settled p f image slot)
    (flag : image.layout.field? .inc 0 = some inc) (xs : List (Nat → Bool)) :
    ∃ word', f.restsIn image word xs = some word' := by
  induction xs generalizing word with
  | nil => exact ⟨word, rfl⟩
  | cons x rest ih =>
    obtain ⟨m, step, settled⟩ := settled.step declared flag x
    obtain ⟨word', run⟩ := ih settled
    exact ⟨word', by rw [Fabric.restsIn, step]; exact run⟩

/-- A transition that keeps the machine in its state keeps the fabric in the first word or leads to
the last one. -/
theorem word_of_answers (stands : p.Stands f image e first) {n : Nat} {t : Transition} {m : Move}
    (answers : p.Answers f image.layout (f.lastWord e first) n t m) (stays : t.target = e.id) :
    m.word = first ∨ m.word = f.lastWord e first ∧ n = f.guards := by
  refine answers.word.imp_left fun target => ?_
  rw [stays, stands.places.slot] at target
  exact (Option.some.inj target).symm

/-- The words that a machine can rest in while it stays in a state: the first one, and the last one
if some inputs take the transition behind all tables. -/
def RestWord (f : Fabric) (e : StateEntry) (first word : Nat) : Prop :=
  word = first ∨
    word = f.lastWord e first ∧ f.ReachesBehind e.transitions (e.chain f.guards).length

theorem restWord_step (stands : p.Stands f image e first)
    (enough : f.ReachesBehind e.transitions (e.chain f.guards).length →
      f.LastWordSuffices image.layout e.transitions (e.chain f.guards).length)
    {word : Nat} {m : Move} {t : Transition} (rests : RestWord f e first word)
    (kept : firstMatch x e.transitions = some t) (stays : t.target = e.id)
    (step : f.step image x word = some m) : RestWord f e first m.word := by
  obtain ⟨i, t', decides⟩ := stands.exists_decides x
  obtain rfl : t' = t := Option.some.inj (decides.firstMatch_eq.symm.trans kept)
  rcases rests with rfl | ⟨rfl, behind⟩
  · rcases stands.answers_first decides with ⟨m', step', answers⟩ | ⟨none, -⟩
    · obtain rfl : m' = m := Option.some.inj (step'.symm.trans step)
      refine (stands.word_of_answers answers stays).imp_right fun ⟨last, place⟩ => ⟨last, ?_⟩
      have behind : i = (e.chain f.guards).length * f.guards := by
        by_contra table
        rw [Fabric.placeOf, if_neg table] at place
        exact absurd place (Nat.mod_lt _ stands.pos).ne
      exact ⟨x, t', behind ▸ decides⟩
    · rw [none] at step
      cases step
  · obtain ⟨j, u, decidesLast⟩ := stands.exists_decides_last x
    have same := (enough behind x i t' j u decides decidesLast).1
    rcases stands.answers_last decidesLast with ⟨m', step', answers⟩ | ⟨none, -⟩
    · obtain rfl : m' = m := Option.some.inj (step'.symm.trans step)
      exact (stands.word_of_answers answers (same.symm.trans stays)).imp_right
        fun ⟨last, _⟩ => ⟨last, behind⟩
    · rw [none] at step
      cases step

theorem restWord_restsIn (stands : p.Stands f image e first)
    (enough : f.ReachesBehind e.transitions (e.chain f.guards).length →
      f.LastWordSuffices image.layout e.transitions (e.chain f.guards).length)
    {xs : List (Nat → Bool)}
    (kept : ∀ x ∈ xs, ∃ t, firstMatch x e.transitions = some t ∧ t.target = e.id) {word word' : Nat}
    (rests : RestWord f e first word) (run : f.restsIn image word xs = some word') :
    RestWord f e first word' := by
  induction xs generalizing word with
  | nil => exact Option.some.inj run ▸ rests
  | cons x rest ih =>
    obtain ⟨⟨t, taken, stays⟩, later⟩ := List.forall_mem_cons.1 kept
    obtain ⟨m, step, run⟩ := Option.bind_eq_some_iff.1 run
    exact ih later (stands.restWord_step enough rests taken stays step) run

theorem sameMove_refl (p : Placement) (r : Option Move) : Option.Rel p.SameMove r r := by
  cases r with
  | none => exact .none
  | some m => exact .some ⟨fun _ => rfl, rfl⟩

theorem sameMove_of_answers {home n n' : Nat} {t u : Transition} {m m' : Move}
    (answers : p.Answers f image.layout home n t m) (answers' : p.Answers f image.layout home n' u m')
    (target : t.target = u.target)
    (output : ∀ bit, image.layout.shown n t.output bit = image.layout.shown n' u.output bit) :
    p.SameMove m m' where
  output bit := by rw [answers.output, answers'.output, output]
  state := by rw [answers.state, answers'.state, target]

/-- A state of one word is decided there as a whole. -/
theorem lastWordSuffices_of_single (stands : p.Stands f image e first)
    (single : (e.chain f.guards).length = 1) :
    f.LastWordSuffices image.layout e.transitions (e.chain f.guards).length := by
  intro x i t j u decides decidesLast
  rw [single, Nat.sub_self, Nat.zero_mul, List.drop_zero] at decidesLast
  obtain ⟨rfl, rfl⟩ := decides.unique decidesLast
  refine ⟨rfl, fun bit => ?_⟩
  have place : f.placeOf (e.chain f.guards).length i = i := by
    unfold Fabric.placeOf
    rcases stands.step decides with ⟨table, -⟩ | ⟨behind, -⟩
    · rw [if_neg table.ne]
      rw [single, Nat.one_mul] at table
      exact Nat.mod_eq_of_lt table
    · rw [if_pos behind, behind, single, Nat.one_mul]
  rw [place]

/-- Resting is harmless exactly if the last word decides as the whole state, or is never rested
in. -/
theorem restsHarmlessly_iff (stands : p.Stands f image e first) :
    f.RestsHarmlessly image p e.transitions e.id first ↔
      (f.ReachesBehind e.transitions (e.chain f.guards).length →
        f.LastWordSuffices image.layout e.transitions (e.chain f.guards).length) := by
  have count := StateEntry.length_chainWithin_pos f.guards e.transitions.length e
  rcases Nat.eq_or_lt_of_le (show 1 ≤ (e.chain f.guards).length from count) with single | several
  · have same : f.lastWord e first = first := by rw [Fabric.lastWord, ← single]; rfl
    have enough := stands.lastWordSuffices_of_single single.symm
    refine iff_of_true (fun xs kept word run x => ?_) fun _ => enough
    rcases stands.restWord_restsIn (fun _ => enough) kept (.inl rfl) run with rfl | ⟨rfl, -⟩
    · exact sameMove_refl p _
    · rw [same]
      exact sameMove_refl p _
  · obtain ⟨inc, flag⟩ := stands.exists_flag several
    have fromFirst {x : Nat → Bool} {i : Nat} {t : Transition}
        (decides : Decides e.transitions x i t) :=
      (stands.answers_first decides).resolve_right fun failed => nomatch flag.symm.trans failed.2
    have fromLast {x : Nat → Bool} {j : Nat} {u : Transition}
        (decides : Decides (e.transitions.drop (((e.chain f.guards).length - 1) * f.guards)) x j u) :=
      (stands.answers_last decides).resolve_right fun failed => nomatch flag.symm.trans failed.2
    constructor
    · rintro harmless ⟨x₀, t₀, behind⟩ x i t j u decides decidesLast
      -- one step with the inputs that take the transition behind the tables leads to the last word
      obtain ⟨stays, run⟩ : t₀.target = e.id ∧
          f.restsIn image first [x₀] = some (f.lastWord e first) := by
        rcases stands.step behind with ⟨table, -⟩ | ⟨-, stays, field, -, step⟩
        · exact absurd table (Nat.lt_irrefl _)
        · rw [Fabric.restsIn, step, flag]
          exact ⟨stays, rfl⟩
      have rel := harmless [x₀] (fun x member => List.mem_singleton.1 member ▸
        ⟨t₀, behind.firstMatch_eq, stays⟩) _ run x
      obtain ⟨m, step, answers⟩ := fromFirst decides
      obtain ⟨m', step', answers'⟩ := fromLast decidesLast
      rw [step, step'] at rel
      cases rel with
      | some same =>
        refine ⟨Option.some.inj ?_, fun bit => ?_⟩
        · rw [← answers.state, ← answers'.state, same.state]
        · rw [← answers.output, ← answers'.output, same.output]
    · intro enough xs kept word run x
      rcases stands.restWord_restsIn enough kept (.inl rfl) run with rfl | ⟨rfl, behind⟩
      · exact sameMove_refl p _
      · obtain ⟨i, t, decides⟩ := stands.exists_decides x
        obtain ⟨j, u, decidesLast⟩ := stands.exists_decides_last x
        obtain ⟨target, output⟩ := enough behind x i t j u decides decidesLast
        obtain ⟨m, step, answers⟩ := fromFirst decides
        obtain ⟨m', step', answers'⟩ := fromLast decidesLast
        rw [step, step']
        exact .some (sameMove_of_answers answers' answers target.symm fun bit => (output bit).symm)

end Placement.Stands

namespace Session

variable {s : Session} {design : Design} {b : Builder} {image : Image}

/-- On a chip with a flag the fabric never gets stuck. While inputs keep a compiled machine in a
declared state, resting is harmless exactly if the last word of the state decides as all its words
together, or is never rested in. -/
theorem rest_harmless_iff (valid : s.chip.validate = .ok ()) (disjoint : s.chip.layout.Disjoint)
    (wide : ∀ inc, s.chip.layout.field? .inc 0 = some inc → 0 < inc.width)
    (replayed : design.replay = .ok b) (compiled : s.compile b = .ok image) :
    ∃ f, Fabric.ofChip s.chip = .ok f ∧ ∀ state arm, (state, arm) ∈ b.arms →
      ∃ first, (Placement.ofBuilder b f.guards).slots.find? state = some first ∧
        (s.chip.layout.field? .inc 0 ≠ none → ∀ xs, ∃ word, f.restsIn image first xs = some word) ∧
        (f.RestsHarmlessly image (Placement.ofBuilder b f.guards) (b.transitions state) state first ↔
          (f.ReachesBehind (b.transitions state) ((b.entryOf state arm).chain f.guards).length →
            f.LastWordSuffices s.chip.layout (b.transitions state)
              ((b.entryOf state arm).chain f.guards).length)) := by
  obtain ⟨f, built, layout, stands⟩ := stands_of_compile valid disjoint wide replayed compiled
  refine ⟨f, built, fun state arm declared => ?_⟩
  have settled : ∀ state slot, (Placement.ofBuilder b f.guards).slots.find? state = some slot →
      Placement.Stands.Settled (Placement.ofBuilder b f.guards) f image slot := by
    intro state slot found
    obtain ⟨⟨_, arm⟩, member, rfl⟩ := List.mem_map.1 (Placement.mem_states_of_slot found)
    obtain ⟨first, here⟩ := stands _ arm member
    exact ⟨_, first, here, .inl (Option.some.inj (found.symm.trans here.places.slot))⟩
  obtain ⟨first, stands⟩ := stands state arm declared
  refine ⟨first, stands.places.slot, fun flag xs => ?_, layout ▸ stands.restsHarmlessly_iff⟩
  obtain ⟨inc, flag⟩ := Option.ne_none_iff_exists'.1 (layout ▸ flag)
  exact (settled _ _ stands.places.slot).exists_restsIn settled flag xs

theorem rest_harmless_iff_oneTable :
    oneTable.chip.validate = .ok () ∧ oneTable.chip.layout.Disjoint ∧
      ∃ b image f arm first, twoStates.replay = .ok b ∧ oneTable.compile b = .ok image ∧
        Fabric.ofChip oneTable.chip = .ok f ∧ (0, arm) ∈ b.arms ∧
        (Placement.ofBuilder b f.guards).slots.find? 0 = some first ∧
        (∀ xs, ∃ word, f.restsIn image first xs = some word) ∧
        (f.RestsHarmlessly image (Placement.ofBuilder b f.guards) (b.transitions 0) 0 first ↔
          (f.ReachesBehind (b.transitions 0) ((b.entryOf 0 arm).chain f.guards).length →
            f.LastWordSuffices oneTable.chip.layout (b.transitions 0)
              ((b.entryOf 0 arm).chain f.guards).length)) := by
  have valid : oneTable.chip.validate = .ok () := rfl
  have disjoint : oneTable.chip.layout.Disjoint := by decide
  have wide : ∀ inc, oneTable.chip.layout.field? .inc 0 = some inc → 0 < inc.width := by
    rintro inc ⟨⟩
    exact Nat.one_pos
  obtain ⟨b, image, -, replayed, compiled, -, declared⟩ :=
    exists_compiled oneTable twoStates (fun b _ _ => 0 ∈ b.states) (by decide +kernel)
  obtain ⟨⟨_, arm⟩, member, rfl⟩ := List.mem_map.1 declared
  obtain ⟨f, built, rests⟩ := rest_harmless_iff valid disjoint wide replayed compiled
  obtain ⟨first, slot, runs, harmless⟩ := rests _ arm member
  exact ⟨valid, disjoint, b, image, f, arm, first, replayed, compiled, built, member, slot,
    runs nofun, harmless⟩

/-- Resting can do harm: after a step without inputs, which keeps the machine in state 0, the fabric
no longer drives output 0 when input 0 is set. -/
theorem rest_harms_oneTable :
    ∃ b image f, twoStates.replay = .ok b ∧ oneTable.compile b = .ok image ∧
      Fabric.ofChip oneTable.chip = .ok f ∧
      (Placement.ofBuilder b f.guards).slots.find? 0 = some 0 ∧
      ¬ f.RestsHarmlessly image (Placement.ofBuilder b f.guards) (b.transitions 0) 0 0 := by
  obtain ⟨b, image, f, replayed, compiled, built, slot, stays, rests, low, high⟩ :=
    exists_compiled oneTable twoStates (fun b image f =>
      (Placement.ofBuilder b f.guards).slots.find? 0 = some 0 ∧
      (firstMatch (fun _ => false) (b.transitions 0)).map Transition.target = some 0 ∧
      f.restsIn image 0 [fun _ => false] = some 1 ∧
      (f.step image (fun i => i == 0) 1).map (·.output.get 0) = some false ∧
      (f.step image (fun i => i == 0) 0).map (·.output.get 0) = some true) (by decide +kernel)
  refine ⟨b, image, f, replayed, compiled, built, slot, fun harmless => ?_⟩
  have kept : ∀ x ∈ [fun _ => false], ∃ t, firstMatch x (b.transitions 0) = some t ∧
      t.target = 0 := by
    intro x member
    rw [List.mem_singleton.1 member]
    exact Option.map_eq_some_iff.1 stays
  have rel := harmless [fun _ => false] kept 1 rests fun i => i == 0
  obtain ⟨m, step, low⟩ := Option.map_eq_some_iff.1 low
  obtain ⟨m', step', high⟩ := Option.map_eq_some_iff.1 high
  rw [step, step'] at rel
  cases rel with
  | some same =>
    rw [same.output, high] at low
    cases low

end Session

end FsmFabric
