import FsmFabric.Proofs.Compiler
import FsmFabric.Proofs.Design

/-!
# A step of a compiled machine

One step of the fabric from the first word of a declared state drives the outputs of the first
transition whose guard holds and goes to the word of its target. There is one exception: a
transition that stands behind the tables of the last word of its state leaves the fabric in that
word, even if the state starts in another one.
-/

namespace FsmFabric

open Transition

variable {f : Fabric} {image : Image} {p : Placement} {e : StateEntry} {first : Nat}
  {x : Nat → Bool}

/-- A state stands in an image: the words from its first one on do what the entries of its chain
say, and it has a transition for all inputs. -/
structure Placement.Stands (p : Placement) (f : Fabric) (image : Image) (e : StateEntry)
    (first : Nat) : Prop where
  places : p.Places f.guards e first
  consistent : p.Consistent
  pos : 0 < f.guards
  whole : e.isPartial = false
  total : ∃ t, e.transitions.getLast? = some t ∧ t.guard = .literal true
  carried : ∀ (word : Nat) (c : StateEntry), p.entries[word]? = some c →
    word < image.layout.words ∧ f.Carries image p.slots word c

namespace Placement.Stands

theorem exists_decides (stands : p.Stands f image e first) (x : Nat → Bool) :
    ∃ i t, Decides e.transitions x i t := by
  obtain ⟨t, last, guard⟩ := stands.total
  exact Decides.exists_of_mem (List.mem_of_getLast? last) (by rw [guard, Expr.holds_literal])

/-- A step from the first word of a state. -/
theorem step (stands : p.Stands f image e first) {i : Nat} {t : Transition}
    (decides : Decides e.transitions x i t) :
    (i < (e.chain f.guards).length * f.guards ∧
      ∃ field slot, image.layout.field? .out (i % f.guards) = some field ∧
        p.slots.find? t.target = some slot ∧
        f.step image x first = some ⟨slot, t.output.extract 0 field.width⟩) ∨
    (i = (e.chain f.guards).length * f.guards ∧ t.target = e.id ∧
      ∃ field, image.layout.field? .out f.guards = some field ∧
        f.step image x first = (image.layout.field? .inc 0).map fun _ =>
          ⟨first + ((e.chain f.guards).length - 1), t.output.extract 0 field.width⟩) := by
  have count := StateEntry.length_chainWithin_pos f.guards e.transitions.length e
  have last := List.getElem?_eq_getElem (Nat.sub_one_lt_of_lt count)
  have far := (stands.carried _ _ (stands.places.chain _ _ last)).1
  refine Fabric.stepWithin_of_chain
    (fun k c found => (stands.carried _ c (stands.places.chain k c found)).2) stands.pos le_rfl
    stands.whole decides ?_
  omega

end Placement.Stands

namespace Session

variable {s : Session} {design : Design} {b : Builder}

/-- Every declared state of a compiled machine stands in the image. -/
theorem stands_of_compile (valid : s.chip.validate = .ok ()) (disjoint : s.chip.layout.Disjoint)
    (wide : ∀ inc, s.chip.layout.field? .inc 0 = some inc → 0 < inc.width)
    (replayed : design.replay = .ok b) (compiled : s.compile b = .ok image) :
    ∃ f, Fabric.ofChip s.chip = .ok f ∧ image.layout = s.chip.layout ∧
      ∀ state arm, (state, arm) ∈ b.arms →
        ∃ first, (Placement.ofBuilder b f.guards).Stands f image (b.entryOf state arm) first := by
  obtain ⟨f, built, layout, hosts, carried⟩ := carries_of_compile valid disjoint wide compiled
  have pos := hosts.regular.guards_pos
  refine ⟨f, built, layout, fun state arm declared => ?_⟩
  obtain ⟨first, places⟩ :
      ∃ first, (Placement.ofBuilder b f.guards).Places f.guards (b.entryOf state arm) first :=
    Placement.exists_places (Design.reachable_of_replay replayed).nodup_states declared
  exact ⟨first, places, Placement.consistent_ofBuilder b pos, pos, rfl,
    b.diagram.exists_getLast?_transitions state, carried⟩

/-- A step from the first word of a declared state takes the first transition whose guard holds. It
drives the bits of the output that fit the field and goes to the word of the target, unless the
transition stands behind all tables of the state: then the fabric rests in the last word. -/
theorem step_takes_first_transition {inc : Field} (valid : s.chip.validate = .ok ())
    (disjoint : s.chip.layout.Disjoint) (flag : s.chip.layout.field? .inc 0 = some inc)
    (wide : 0 < inc.width) (replayed : design.replay = .ok b)
    (compiled : s.compile b = .ok image) :
    ∃ f, Fabric.ofChip s.chip = .ok f ∧
      ∀ state arm, (state, arm) ∈ b.arms → ∀ x, ∃ first i t field move,
        (Placement.ofBuilder b f.guards).slots.find? state = some first ∧
        Decides (b.transitions state) x i t ∧
        f.step image x first = some move ∧
        move.output = t.output.extract 0 field.width ∧
        if i = ((b.entryOf state arm).chain f.guards).length * f.guards then
          s.chip.layout.field? .out f.guards = some field ∧ t.target = state ∧
          move.word = first + (((b.entryOf state arm).chain f.guards).length - 1)
        else
          s.chip.layout.field? .out (i % f.guards) = some field ∧
          (Placement.ofBuilder b f.guards).slots.find? t.target = some move.word := by
  obtain ⟨f, built, layout, stands⟩ := stands_of_compile valid disjoint
    (fun field found => Option.some.inj (flag.symm.trans found) ▸ wide) replayed compiled
  refine ⟨f, built, fun state arm declared x => ?_⟩
  obtain ⟨first, stands⟩ := stands state arm declared
  obtain ⟨i, t, decides⟩ := stands.exists_decides x
  rw [← layout] at flag ⊢
  rcases stands.step decides with
    ⟨table, field, slot, found, target, step⟩ | ⟨behind, stays, field, found, step⟩
  · refine ⟨first, i, t, field, _, stands.places.slot, decides, step, rfl, ?_⟩
    rw [if_neg table.ne]
    exact ⟨found, target⟩
  · rw [flag] at step
    refine ⟨first, i, t, field, _, stands.places.slot, decides, step, rfl, ?_⟩
    rw [if_pos behind]
    exact ⟨found, stays, rfl⟩

/-- A chip whose only table has one pin, with four words of eight bits. -/
def oneTable : Session where
  module := "switch"
  config := "one table"
  chip :=
    { title := "LUT1"
      version := ""
      wires := []
      muxes := ⟨1, 1⟩
      staticLuts := [⟨0, 1⟩]
      conditionalLuts := []
      layout :=
        { words := 4
          width := 8
          fields := [⟨.inc, 0, 1⟩, ⟨.mux, 1, 1⟩, ⟨.jmp, 2, 2⟩, ⟨.out, 4, 1⟩, ⟨.out, 5, 1⟩,
            ⟨.cfg, 6, 2⟩] } }

/-- Two states. State 0 drives output 0 while input 0 holds, and otherwise goes to state 1 when
input 1 holds; state 1 goes back. -/
def twoStates : Design where
  module := "switch"
  events := [
    .splitState 0 none,
    .split (.inputs [0]) none, .assign (.output 0) true, .visit false,
    .split (.inputs [1]) none, .setTarget (some 1), .join, .join, .visit false,
    .splitState 1 none, .setTarget (some 0), .join, .join]

/-- What holds of a compiled machine when it is evaluated. -/
theorem exists_compiled (s : Session) (design : Design) (p : Builder → Image → Fabric → Prop)
    [∀ b image f, Decidable (p b image f)]
    (evaluated : (do
      let b ← design.replay
      let image ← s.compile b
      let f ← Fabric.ofChip s.chip
      return decide (p b image f) : Result Bool).toOption = some true) :
    ∃ b image f, design.replay = .ok b ∧ s.compile b = .ok image ∧
      Fabric.ofChip s.chip = .ok f ∧ p b image f := by
  obtain ⟨b, replayed, outcome⟩ := bind_eq_ok.1 (toOption_eq_some.1 evaluated)
  obtain ⟨image, compiled, outcome⟩ := bind_eq_ok.1 outcome
  obtain ⟨f, built, outcome⟩ := bind_eq_ok.1 outcome
  exact ⟨b, image, f, replayed, compiled, built, of_decide_eq_true (pure_eq_ok.1 outcome)⟩

theorem step_takes_first_transition_oneTable :
    oneTable.chip.validate = .ok () ∧ oneTable.chip.layout.Disjoint ∧
      ∃ b image f arm first i t, ∃ (field : Field) (move : Move), twoStates.replay = .ok b ∧
        oneTable.compile b = .ok image ∧ Fabric.ofChip oneTable.chip = .ok f ∧ (0, arm) ∈ b.arms ∧
        (Placement.ofBuilder b f.guards).slots.find? 0 = some first ∧
        Decides (b.transitions 0) (fun _ => false) i t ∧
        f.step image (fun _ => false) first = some move ∧
        move.output = t.output.extract 0 field.width ∧
        if i = ((b.entryOf 0 arm).chain f.guards).length * f.guards then
          oneTable.chip.layout.field? .out f.guards = some field ∧ t.target = 0 ∧
          move.word = first + (((b.entryOf 0 arm).chain f.guards).length - 1)
        else
          oneTable.chip.layout.field? .out (i % f.guards) = some field ∧
          (Placement.ofBuilder b f.guards).slots.find? t.target = some move.word := by
  have valid : oneTable.chip.validate = .ok () := rfl
  have disjoint : oneTable.chip.layout.Disjoint := by decide
  obtain ⟨b, image, -, replayed, compiled, -, declared⟩ :=
    exists_compiled oneTable twoStates (fun b _ _ => 0 ∈ b.states) (by decide +kernel)
  obtain ⟨⟨_, arm⟩, member, rfl⟩ := List.mem_map.1 declared
  obtain ⟨f, built, steps⟩ :=
    step_takes_first_transition valid disjoint rfl Nat.one_pos replayed compiled
  obtain ⟨first, i, t, field, move, taken⟩ := steps _ arm member fun _ => false
  exact ⟨valid, disjoint, b, image, f, arm, first, i, t, field, move, replayed, compiled, built,
    member, taken⟩

/-- With no input set, the first transition of state 0 that holds leads to state 0, which starts in
word 0, but the fabric rests in word 1. -/
theorem step_leaves_first_word :
    ∃ b image f, twoStates.replay = .ok b ∧ oneTable.compile b = .ok image ∧
      Fabric.ofChip oneTable.chip = .ok f ∧
      ((Placement.ofBuilder b f.guards).slots.find? 0 = some 0 ∧
        (firstMatch (fun _ => false) (b.transitions 0)).map Transition.target = some 0 ∧
        (f.step image (fun _ => false) 0).map Move.word = some 1) := by
  exact exists_compiled oneTable twoStates (fun b image f =>
    (Placement.ofBuilder b f.guards).slots.find? 0 = some 0 ∧
      (firstMatch (fun _ => false) (b.transitions 0)).map Transition.target = some 0 ∧
      (f.step image (fun _ => false) 0).map Move.word = some 1) (by decide +kernel)

end Session

end FsmFabric
