import FsmFabric.Proofs.Fabric.Valid
import Mathlib.Algebra.Ring.Nat
import Mathlib.Data.Finset.Card

/-!
# Allocation ends, and multiplexers are never shared in conflict

Giving pins to an input cannot fail: every pin has a table, and a table that waits is counted. Each
round gives away a pin that was free, so the loop ends before its bound is reached, either with all
tables served or at a demand that no multiplexer fits. In the end the pins of each multiplexer
observe one input or none, so writing the selections finds no conflict.
-/

namespace FsmFabric

open Edit

namespace Fabric

variable {f : Fabric} {d : Demand} {a : Allocation} {waiting : List Nat} {input : Nat}

/-! ## No round fails -/

theorem Waits.exists_givePin (tiled : f.Tiled) (waits : f.Waits d waiting) (input : Nat)
    (a : Allocation) {pin : Nat} (inside : pin < f.wiring.pinCount) :
    ∃ result, f.givePin input d a pin = .ok result := by
  obtain ⟨n, t, found, has⟩ := tiled.covered pin inside
  unfold Fabric.givePin
  rw [tiled.tableOf_eq found has, found]
  simp only
  split
  · next welcome =>
    obtain ⟨n', member, -⟩ := (waits.pins pin).1 welcome
    have counted : 1 ≤ d.tables := waits.tables ▸ List.length_pos_of_mem member
    exact ⟨_, bind_eq_ok.2 ⟨_, Checked.sub_eq_ok.2 ⟨counted, rfl⟩, rfl⟩⟩
  · exact ⟨_, rfl⟩

theorem Waits.exists_givePins (tiled : f.Tiled) (waits : f.Waits d waiting) (input : Nat)
    (a : Allocation) {pins : List Nat} (inside : ∀ pin ∈ pins, pin < f.wiring.pinCount) :
    ∃ result, f.givePins input d a pins = .ok result := by
  induction pins generalizing d a waiting with
  | nil => exact ⟨(d, a), rfl⟩
  | cons pin rest ih =>
    obtain ⟨here, later⟩ := List.forall_mem_cons.1 inside
    obtain ⟨⟨d₁, a₁⟩, given⟩ := waits.exists_givePin tiled input a here
    obtain ⟨n, t, -, -, waits₁, -⟩ := waits.givePin tiled here given
    obtain ⟨result, done⟩ := ih waits₁ a₁ later
    exact ⟨result, bind_eq_ok.2 ⟨(d₁, a₁), given, done⟩⟩

def freePins (f : Fabric) (a : Allocation) : Finset Nat :=
  (Finset.range f.wiring.pinCount).filter fun pin => a.used.get pin = false

theorem mem_freePins {pin : Nat} :
    pin ∈ f.freePins a ↔ pin < f.wiring.pinCount ∧ a.used.get pin = false := by
  rw [freePins, Finset.mem_filter, Finset.mem_range]

theorem card_freePins_le (f : Fabric) (a : Allocation) :
    (f.freePins a).card ≤ f.wiring.pinCount :=
  (Finset.card_filter_le _ _).trans_eq (Finset.card_range _)

/-- Pins that observe an input stay given away, so a round that gives one more leaves fewer. -/
theorem card_freePins_lt {a' : Allocation} (allots : f.Allots a) (allots' : f.Allots a')
    (extended : Extended input a.observed a'.observed) {pin : Nat}
    (inside : pin < f.wiring.pinCount) (free : a.used.get pin = false)
    (used : a'.used.get pin = true) : (f.freePins a').card < (f.freePins a).card := by
  apply Finset.card_lt_card
  refine ⟨fun p member => ?_, fun subset => ?_⟩
  · obtain ⟨lt, unused⟩ := mem_freePins.1 member
    refine mem_freePins.2 ⟨lt, ?_⟩
    rw [← Bool.not_eq_true] at unused ⊢
    intro old
    obtain ⟨i, observed⟩ := (allots.used p).1 old
    exact unused ((allots'.used p).2 ⟨i, extended.kept p i observed⟩)
  · have kept := (mem_freePins.1 (subset (mem_freePins.2 ⟨inside, free⟩))).2
    rw [used] at kept
    cases kept

/-- A multiplexer that fits drives only pins that exist, and one of them is free. -/
theorem freePins_of_bestFit {pins : List Nat} {parties : Nat}
    (fit : f.wiring.bestFit (d.pins.without a.used) parties = some pins) :
    (∀ pin ∈ pins, pin < f.wiring.pinCount) ∧ (f.freePins a).Nonempty := by
  obtain ⟨mux, welcome, rfl, demanded, driven⟩ := Wiring.exists_of_bestFit fit
  rw [Mask.get_without, Bool.and_eq_true, Bool.not_eq_true'] at demanded
  have inside : ∀ pin ∈ f.wiring.pinsOf mux, pin < f.wiring.pinCount := fun pin member =>
    (List.getElem?_eq_some_iff.1 (Wiring.mem_pinsOf.1 member)).1
  exact ⟨inside, welcome, mem_freePins.2 ⟨inside welcome (Wiring.mem_pinsOf.2 driven), demanded.2⟩⟩

/-! ## How the loop ends -/

/-- Rounds of serving an input, each of which gives it the multiplexer that fits best. -/
inductive Rounds (f : Fabric) (input : Nat) : Demand → Allocation → Demand → Allocation → Prop
  | refl (d : Demand) (a : Allocation) : Rounds f input d a d a
  | round {d d₁ d' : Demand} {a a₁ a' : Allocation} {pins : List Nat} (waits : d.tables ≠ 0)
      (fit : f.wiring.bestFit (d.pins.without a.used) d.tables = some pins)
      (given : f.givePins input d a pins = .ok (d₁, a₁)) (rest : Rounds f input d₁ a₁ d' a') :
      Rounds f input d a d' a'

/-- Rounds of serving an input lead to where tables wait but no multiplexer fits. -/
def Stuck (f : Fabric) (place : Option Position) (input : Nat) (d : Demand) (a : Allocation)
    (failure : Failure Error) : Prop :=
  ∃ d' a', f.Rounds input d a d' a' ∧ 0 < d'.tables ∧
    f.wiring.bestFit (d'.pins.without a'.used) d'.tables = none ∧
    failure = .refused (.noWire d'.pins.text place)

/-- Serving an input comes to an end: no table waits any more, or no multiplexer fits those that do.
The bounded loop ends in the same way. -/
def Halts (f : Fabric) (place : Option Position) (input free : Nat) (d : Demand) (a : Allocation) :
    Prop :=
  ∃ d' a', f.Rounds input d a d' a' ∧
    (d'.tables = 0 ∧ f.serve place input free d a = .ok a' ∨
      0 < d'.tables ∧ f.wiring.bestFit (d'.pins.without a'.used) d'.tables = none ∧
        f.serve place input free d a = refuse (.noWire d'.pins.text place))

/-- As many rounds as there are free pins are enough. -/
theorem Waits.halts (tiled : f.Tiled) (waits : f.Waits d waiting) (allots : f.Allots a)
    (place : Option Position) (input : Nat) {free : Nat} (bound : (f.freePins a).card ≤ free) :
    f.Halts place input free d a := by
  induction count : (f.freePins a).card using Nat.strong_induction_on
    generalizing d a waiting free with
  | _ n ih =>
    unfold Halts Fabric.serve
    by_cases wait : d.tables = 0
    · rw [if_pos wait]
      exact ⟨d, a, .refl d a, .inl ⟨wait, rfl⟩⟩
    rw [if_neg wait]
    cases fit : f.wiring.bestFit (d.pins.without a.used) d.tables with
    | none => exact ⟨d, a, .refl d a, .inr ⟨Nat.pos_of_ne_zero wait, fit, rfl⟩⟩
    | some pins =>
      -- a multiplexer that fits needs a free pin, so the bound is not used up
      obtain ⟨inside, nonempty⟩ := freePins_of_bestFit fit
      obtain ⟨left, rfl⟩ := Nat.exists_eq_add_one.2 ((Finset.card_pos.2 nonempty).trans_le bound)
      obtain ⟨⟨d₁, a₁⟩, given⟩ := waits.exists_givePins tiled input a inside
      obtain ⟨allots₁, extended, ⟨pin, real, unused, used⟩, waiting₁, waits₁, -⟩ :=
        waits.giveMux tiled allots fit given
      have fewer := card_freePins_lt allots allots₁ extended real unused used
      have bound₁ : (f.freePins a₁).card ≤ left := by omega
      simp only [given]
      obtain ⟨d', a', rounds, outcome⟩ := ih _ (count ▸ fewer) waits₁ allots₁ bound₁ rfl
      exact ⟨d', a', .round wait fit given rounds, outcome⟩

/-- Serving an input succeeds or gets stuck. -/
theorem Waits.exists_serve (tiled : f.Tiled) (waits : f.Waits d waiting) (allots : f.Allots a)
    (place : Option Position) (input : Nat) {free : Nat} (bound : (f.freePins a).card ≤ free) :
    (∃ a', f.serve place input free d a = .ok a') ∨
      ∃ failure, f.serve place input free d a = .error failure ∧
        f.Stuck place input d a failure := by
  obtain ⟨d', a', rounds, outcome⟩ := waits.halts tiled allots place input bound
  rcases outcome with ⟨-, served⟩ | ⟨wait, unfit, refused⟩
  · exact .inl ⟨a', served⟩
  · exact .inr ⟨_, refused, d', a', rounds, wait, unfit, rfl⟩

/-- All inputs before one of them are served, and serving that one gets stuck. -/
def Lacks (f : Fabric) (place : Option Position) (reads : List (List Nat)) (inputs : List Nat)
    (a : Allocation) (failure : Failure Error) : Prop :=
  ∃ before input after a', inputs = before ++ input :: after ∧
    f.serveAll place reads before a = .ok a' ∧
    f.Stuck place input (f.demand reads input) a' failure

theorem Allots.exists_serveAll (tiled : f.Tiled) (allots : f.Allots a) (place : Option Position)
    (reads : List (List Nat)) (inputs : List Nat) :
    (∃ a', f.serveAll place reads inputs a = .ok a') ∨
      ∃ failure, f.serveAll place reads inputs a = .error failure ∧
        f.Lacks place reads inputs a failure := by
  induction inputs generalizing a with
  | nil => exact .inl ⟨a, rfl⟩
  | cons input rest ih =>
    obtain ⟨waiting, waits, -⟩ := f.exists_waits reads input
    have next := waits.exists_serve tiled allots place input (f.card_freePins_le a)
    unfold Fabric.serveAll
    rcases next with ⟨a₁, served⟩ | ⟨failure, failed, stuck⟩
    · rw [served]
      refine (ih (waits.serve tiled allots served).1).imp_right ?_
      rintro ⟨failure, failed, before, later, after, a', rfl, done, stuck⟩
      refine ⟨failure, failed, input :: before, later, after, a', rfl, ?_, stuck⟩
      exact bind_eq_ok.2 ⟨a₁, served, done⟩
    · rw [failed]
      exact .inr ⟨failure, rfl, [], input, rest, a, rfl, rfl, stuck⟩

/-- What the pins observe suits the conditions of the tables: the pins of a multiplexer observe one
input that its select bits can name, or nothing, and every table sees the inputs of its condition. -/
structure Suits (f : Fabric) (selectBits : Nat) (conditions : List (Option Expr))
    (observed : List (Option Nat)) : Prop where
  length : observed.length = f.wiring.pinCount
  shared : ∀ mux : Nat,
    (∀ pin : Nat, f.wiring.drivers[pin]? = some mux → observed[pin]? = some none) ∨
      ∃ i < 2 ^ selectBits, ∀ pin : Nat, f.wiring.drivers[pin]? = some mux →
        observed[pin]? = some (some i)
  served : ∀ (n : Nat) (t : Lut) (e : Expr), f.luts[n]? = some t →
    conditions[n]? = some (some e) → ∀ i ∈ e.reads,
      ∃ pin : Nat, t.Has pin ∧ observed[pin]? = some (some i)

theorem inputs_of_ofChip {chip : Chip} (built : ofChip chip = .ok f) :
    f.inputs = 2 ^ chip.muxes.selectBits := by
  obtain ⟨_, -, -, inputs, counted, rfl⟩ := ofChip_eq_ok.1 built
  rw [← (Checked.twoPow_eq_ok.1 counted).2, Nat.one_shiftLeft]

theorem suits_of_allocate {chip : Chip} (built : ofChip chip = .ok f) (tiled : f.Tiled)
    {place : Option Position} {conditions : List (Option Expr)} {observed : List (Option Nat)}
    (done : f.allocate place conditions = .ok observed) :
    f.Suits chip.muxes.selectBits conditions observed := by
  obtain ⟨length, shared, selectable, served⟩ := served_of_allocate tiled done
  refine ⟨length, fun mux => ?_, fun n t e table condition i member => ?_⟩
  · by_cases given : ∃ (pin i : Nat), f.wiring.drivers[pin]? = some mux ∧
        observed[pin]? = some (some i)
    · obtain ⟨pin, i, driver, here⟩ := given
      refine .inr ⟨i, inputs_of_ofChip built ▸ selectable pin i here, fun pin' driver' => ?_⟩
      rw [shared pin' pin mux driver' driver, here]
    · refine .inl fun pin driver => ?_
      have inside : pin < observed.length :=
        length ▸ (List.getElem?_eq_some_iff.1 driver).1
      cases here : observed[pin] with
      | none => rw [List.getElem?_eq_getElem inside, here]
      | some i =>
        exact absurd ⟨pin, i, driver, by rw [List.getElem?_eq_getElem inside, here]⟩ given
  · obtain ⟨t', pin, table', has, here⟩ := served n t e table condition i member
    cases table.symm.trans table'
    exact ⟨pin, has, here⟩

/-- Selections that suit some conditions are written without a conflict. -/
theorem Suits.avoids_program {selectBits : Nat} {conditions : List (Option Expr)}
    {observed : List (Option Nat)} (suits : f.Suits selectBits conditions observed)
    (layout : WordLayout) (word : Region) :
    Avoids (f.wiring.program layout word observed)
      (∃ mux before now, · = .internal (.sharedMux mux before now)) := by
  obtain ⟨selects, selected⟩ : ∃ selects, f.wiring.selections observed = .ok selects := by
    apply Wiring.exists_selections
    intro p q mux i j driverP driverQ here there
    rcases suits.shared mux with none | ⟨k, -, all⟩
    · cases (none p driverP).symm.trans here
    · cases (all p driverP).symm.trans here
      cases (all q driverQ).symm.trans there
      rfl
  unfold Wiring.program
  rw [selected]
  exact .bind (.ofExcept fun e failed => nomatch failed) fun _ => MuxBank.avoids_program _ _ _ _

/-- A finished allocation suits the conditions of all tables and is written without a conflict.
Once it is known what every table reads, it finishes or stops for lack of a multiplexer that fits. -/
theorem allocate_suits {chip : Chip} (built : ofChip chip = .ok f) (tiled : f.Tiled)
    (place : Option Position) (conditions : List (Option Expr)) :
    (∀ observed, f.allocate place conditions = .ok observed →
      f.Suits chip.muxes.selectBits conditions observed ∧
        ∀ layout word r mux before now,
          ((f.wiring.program layout word observed).outcome r).1 ≠
            .error (.refused (.internal (.sharedMux mux before now)))) ∧
      ∀ reads, Checked.room f.inputs demandBytes = .ok () → f.reads place conditions = .ok reads →
        (∃ observed, f.allocate place conditions = .ok observed) ∨
          ∃ failure, f.allocate place conditions = .error failure ∧
            f.Lacks place reads (inputsRead reads)
              ⟨List.replicate f.wiring.pinCount none, Mask.empty⟩ failure := by
  refine ⟨fun observed done => ?_, fun reads room read => ?_⟩
  · have suits := suits_of_allocate built tiled done
    refine ⟨suits, fun layout word r mux before now failed => ?_⟩
    exact suits.avoids_program layout word r _ failed ⟨mux, before, now, rfl⟩
  · have loop : f.allocate place conditions = (do
        let a ← f.serveAll place reads (inputsRead reads)
          ⟨List.replicate f.wiring.pinCount none, Mask.empty⟩
        return a.observed) := by
      unfold allocate
      rw [room, read]
      rfl
    rw [loop]
    rcases f.allots_start.exists_serveAll tiled place reads (inputsRead reads) with
      ⟨a, served⟩ | ⟨failure, failed, lacks⟩
    · rw [served]
      exact .inl ⟨a.observed, rfl⟩
    · rw [failed]
      exact .inr ⟨failure, rfl, lacks⟩

/-- Conditions of which the first two share input 3. -/
def sharedInput : List (Option Expr) :=
  [some (.inputs [3, 7]), some (.inputs [3, 9]), some (.inputs [5]), none, none]

/-- The first condition takes the multiplexers that could serve the third. -/
def takenMuxes : List (Option Expr) :=
  [some (.inputs [0, 1, 2, 3]), none, some (.inputs [4]), none, none]

theorem allocate_suits_fallback :
    ∃ f observed reads failure, ofChip Chip.fallback = .ok f ∧ f.Tiled ∧
      f.allocate none sharedInput = .ok observed ∧ f.Suits 4 sharedInput observed ∧
      (∀ layout word r mux before now,
        ((f.wiring.program layout word observed).outcome r).1 ≠
          .error (.refused (.internal (.sharedMux mux before now)))) ∧
      Checked.room f.inputs demandBytes = .ok () ∧ f.reads none takenMuxes = .ok reads ∧
      f.allocate none takenMuxes = .error failure ∧
      f.Lacks none reads (inputsRead reads)
        ⟨List.replicate f.wiring.pinCount none, Mask.empty⟩ failure := by
  have evaluated : (do
      let f ← ofChip Chip.fallback
      let _ ← f.allocate none sharedInput
      let _ ← f.reads none takenMuxes
      return (f.allocate none takenMuxes).toOption.isNone : Result Bool).toOption = some true := by
    decide +kernel
  obtain ⟨f, built, outcome⟩ := bind_eq_ok.1 (toOption_eq_some.1 evaluated)
  obtain ⟨observed, done, outcome⟩ := bind_eq_ok.1 outcome
  obtain ⟨reads, read, outcome⟩ := bind_eq_ok.1 outcome
  have none_left := pure_eq_ok.1 outcome
  have tiled := (regular_of_validate (c := Chip.fallback) rfl built).1.tiled
  have room : Checked.room f.inputs demandBytes = .ok () := by
    rw [inputs_of_ofChip built]
    rfl
  obtain ⟨suits, program⟩ := (allocate_suits built tiled none sharedInput).1 observed done
  refine ⟨f, observed, reads, ?_⟩
  rcases (allocate_suits built tiled none takenMuxes).2 reads room read with
    ⟨other, finished⟩ | ⟨failure, failed, lacks⟩
  · rw [finished] at none_left
    cases none_left
  · exact ⟨failure, built, tiled, done, suits, program, room, read, failed, lacks⟩

end Fabric

end FsmFabric
