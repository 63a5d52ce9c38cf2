import FsmFabric.Proofs.Chip.Checks

/-!
# Chips with large numbers

A chip file holds numbers below `2 ^ 63`. Checking such a chip adds, multiplies and subtracts them in
64 bits. No table and no field ends past that range, since its start and its size lie below half of
it. But the number of multiplexers is only compared with the width of a field, so its product with
the select bits can leave the range, and a list with an entry for every multiplexer may not fit into
memory. The number of words is not compared with anything.
-/

namespace FsmFabric.Chip

open Edit

variable {c : Chip}

/-- Every number of the chip is one that a chip file can hold. -/
structure InRange (c : Chip) : Prop where
  wires : ∀ w ∈ c.wires, w.1 < 2 ^ 63 ∧ w.2 < 2 ^ 63
  muxes : c.muxes.selectBits < 2 ^ 63 ∧ c.muxes.count < 2 ^ 63
  luts : ∀ t ∈ c.luts, t.firstPin < 2 ^ 63 ∧ t.pins < 2 ^ 63
  layout : c.layout.words < 2 ^ 63 ∧ c.layout.width < 2 ^ 63
  fields : ∀ f ∈ c.layout.fields, f.offset < 2 ^ 63 ∧ f.width < 2 ^ 63

theorem InRange.printable (inRange : c.InRange) : c.layout.width + 3 < Checked.limit := by
  have narrow := inRange.layout.2
  have limit : Checked.limit = 2 ^ 64 := rfl
  omega

/-! ## Checks without faults -/

theorem spares_checkMuxes (c : Chip) : Spares Failure.IsFault c.checkMuxes := by
  unfold checkMuxes
  split
  · exact .refused _
  · split
    · exact .refused _
    · split
      · exact .refused _
      · exact .ok _

theorem spares_checkTiling {runs : List (Nat × Nat)}
    (small : ∀ r ∈ runs, r.1 + r.2 < Checked.limit) (next : Nat) :
    Spares Failure.IsFault (checkTiling next runs) := by
  induction runs generalizing next with
  | nil => exact .ok _
  | cons run rest ih =>
    obtain ⟨here, later⟩ := List.forall_mem_cons.1 small
    have added : Checked.add run.1 run.2 = .ok (run.1 + run.2) :=
      Checked.within_eq_ok.2 ⟨here, rfl⟩
    rw [checkTiling, added]
    split
    · exact ih later _
    · exact .refused _

theorem spares_checkLuts (small : ∀ t ∈ c.luts, t.firstPin + t.pins < Checked.limit) :
    Spares Failure.IsFault c.checkLuts := by
  unfold checkLuts
  split
  · exact .refused _
  · split
    · exact .refused _
    · refine spares_checkTiling (fun r member => ?_) 0
      obtain ⟨t, table, rfl⟩ := List.mem_map.1 ((Ordered.perm_sort _).mem_iff.1 member)
      exact small t table

theorem spares_checkFields {width : Nat} {fields : List Field}
    (small : ∀ f ∈ fields, f.offset + f.width < Checked.limit) :
    Spares Failure.IsFault (checkFields width fields) := by
  induction fields with
  | nil => exact .ok _
  | cons f rest ih =>
    obtain ⟨here, later⟩ := List.forall_mem_cons.1 small
    have added : Checked.add f.offset f.width = .ok (f.offset + f.width) :=
      Checked.within_eq_ok.2 ⟨here, rfl⟩
    rw [checkFields, added]
    show Spares _ (if _ then _ else _)
    split
    · exact .refused _
    · exact ih later

theorem InRange.stops (inRange : c.InRange) :
    (∀ t ∈ c.luts, t.firstPin + t.pins < Checked.limit) ∧
      ∀ f ∈ c.layout.fields, f.offset + f.width < Checked.limit := by
  have limit : Checked.limit = 2 ^ 64 := rfl
  constructor
  · intro t member
    have := inRange.luts t member
    omega
  · intro f member
    have := inRange.fields f member
    omega

/-! ## Checks with faults -/

theorem InRange.checkLayout_eq_fault (inRange : c.InRange) {fault : Fault} :
    c.checkLayout = .error (.fault fault) ↔
      c.SoundFields ∧ (∃ f, c.layout.field? .mux 0 = some f) ∧
        Checked.limit ≤ c.muxes.selectBits * c.muxes.count ∧ fault = .range := by
  unfold checkLayout
  split
  · next empty =>
    refine ⟨nofun, fun ⟨sound, _⟩ => ?_⟩
    have := sound.words_pos
    have := sound.width_pos
    omega
  · next some =>
    rw [bind_eq_error]
    constructor
    · rintro (failed | ⟨_, fields, failed⟩)
      · exact absurd ⟨fault, rfl⟩ (spares_checkFields inRange.stops.2 _ failed)
      · refine ⟨⟨by omega, by omega, checkFields_eq_ok.1 fields⟩, ?_⟩
        split at failed
        · cases failed
        · next f found =>
          refine ⟨⟨f, found⟩, ?_⟩
          rcases bind_eq_error.1 failed with large | ⟨needed, -, failed⟩
          · exact Checked.within_eq_error.1 (liftM_eq_fault.1 large)
          · split at failed <;> cases failed
    · rintro ⟨sound, ⟨f, found⟩, large, rfl⟩
      refine .inr ⟨(), checkFields_eq_ok.2 sound.inside, ?_⟩
      rw [found]
      exact bind_eq_error.2 (.inl (liftM_eq_fault.2 (Checked.within_eq_error.2 ⟨large, rfl⟩)))

/-- How the check of a chip whose tables and fields are sound can leave the range. -/
inductive Overflow (c : Chip) : Fault → Prop where
  | selections (f : Field) (found : c.layout.field? .mux 0 = some f)
      (large : Checked.limit ≤ c.muxes.selectBits * c.muxes.count) : Overflow c .range
  | pins (holds : c.HoldsSelections) (once : (c.wires.map Prod.fst).Nodup)
      (many : 2 ^ 63 ≤ c.totalPins * Wiring.numberBytes) :
      Overflow c (.tooManyEntries c.totalPins)
  | muxes (holds : c.HoldsSelections) (once : (c.wires.map Prod.fst).Nodup)
      (few : c.totalPins * Wiring.numberBytes < 2 ^ 63)
      (many : 2 ^ 63 ≤ c.muxes.count * Wiring.numberBytes) :
      Overflow c (.tooManyEntries c.muxes.count)

theorem InRange.validate_eq_fault (inRange : c.InRange) {fault : Fault} :
    c.validate = .error (.fault fault) ↔
      c.SoundMuxes ∧ c.SoundLuts ∧ c.SoundFields ∧ c.Overflow fault := by
  constructor
  · intro failed
    rcases bind_eq_error.1 failed with here | ⟨_, muxes, failed⟩
    · exact absurd ⟨fault, rfl⟩ (c.spares_checkMuxes _ here)
    rcases bind_eq_error.1 failed with here | ⟨_, luts, failed⟩
    · exact absurd ⟨fault, rfl⟩ (spares_checkLuts inRange.stops.1 _ here)
    have muxes := checkMuxes_eq_ok.1 muxes
    have luts := checkLuts_eq_ok.1 luts
    rcases bind_eq_error.1 failed with here | ⟨_, layout, failed⟩
    · obtain ⟨fields, ⟨f, found⟩, large, rfl⟩ := inRange.checkLayout_eq_fault.1 here
      exact ⟨muxes, luts, fields, .selections f found large⟩
    · obtain ⟨fields, holds⟩ := checkLayout_eq_ok.1 layout
      refine ⟨muxes, luts, fields, ?_⟩
      rw [wiring_eq_resolve luts.small] at failed
      split at failed
      · cases failed
      · cases failed
      · next wired =>
        cases failed
        obtain ⟨once, ⟨many, rfl⟩ | ⟨few, many, rfl⟩⟩ := Wiring.resolve_eq_fault.1 wired
        · exact .pins holds once many
        · exact .muxes holds once few many
  · rintro ⟨muxes, luts, fields, overflow⟩
    refine bind_eq_error.2 (.inr ⟨(), checkMuxes_eq_ok.2 muxes, ?_⟩)
    refine bind_eq_error.2 (.inr ⟨(), checkLuts_eq_ok.2 luts, ?_⟩)
    rw [wiring_eq_resolve luts.small]
    cases overflow with
    | selections f found large =>
      exact bind_eq_error.2 (.inl (inRange.checkLayout_eq_fault.2 ⟨fields, ⟨f, found⟩, large, rfl⟩))
    | pins holds once many =>
      refine bind_eq_error.2 (.inr ⟨(), checkLayout_eq_ok.2 ⟨fields, holds⟩, ?_⟩)
      rw [Wiring.resolve_eq_fault.2 ⟨once, .inl ⟨many, rfl⟩⟩]
    | muxes holds once few many =>
      refine bind_eq_error.2 (.inr ⟨(), checkLayout_eq_ok.2 ⟨fields, holds⟩, ?_⟩)
      rw [Wiring.resolve_eq_fault.2 ⟨once, .inr ⟨few, many, rfl⟩⟩]

/-! ## The size of the image -/

def withWords (c : Chip) (words : Nat) : Chip := { c with layout := { c.layout with words } }

theorem validate_withWords (valid : c.validate = .ok ()) {words : Nat} (some : 0 < words) :
    (c.withWords words).validate = .ok () := by
  obtain ⟨muxes, luts, fields, selections, wired⟩ := validate_eq_ok.1 valid
  exact validate_eq_ok.2 ⟨{ muxes with }, { luts with },
    ⟨some, fields.width_pos, fields.inside⟩, selections, wired⟩

/-- A word of three bits is enough to leave the range. -/
theorem imageBits_withWords :
    (∀ words < 2 ^ 63, ∃ bits, (c.withWords words).layout.imageBits = .ok bits) ↔
      c.layout.width ≤ 2 := by
  have limit : Checked.limit = 2 ^ 64 := rfl
  constructor
  · intro sized
    obtain ⟨bits, sized⟩ := sized (2 ^ 63 - 1) (by omega)
    have small : (2 ^ 63 - 1) * c.layout.width < Checked.limit := (Checked.within_eq_ok.1 sized).1
    omega
  · intro narrow words lt
    have double : words * c.layout.width ≤ words * 2 := Nat.mul_le_mul_left words narrow
    have small : words * c.layout.width < Checked.limit := by omega
    exact ⟨_, Checked.within_eq_ok.2 ⟨small, rfl⟩⟩

/-- Checking a chip from a file ends in a fault in three cases only. Where no pin is listed twice, no
pin has more listed pins below it than there are pins, so its multiplexer is not negative. An
accepted chip may have any number of words, also one that leaves its image without a size. -/
theorem validate_faults_iff_overflow (inRange : c.InRange) :
    (∀ fault, c.validate = .error (.fault fault) ↔
      c.SoundMuxes ∧ c.SoundLuts ∧ c.SoundFields ∧ c.Overflow fault) ∧
    ((c.wires.map Prod.fst).Nodup → ∀ pin, (c.wires.filter fun w => w.1 < pin).length ≤ pin) ∧
    (c.validate = .ok () → (∀ words, 0 < words → (c.withWords words).validate = .ok ()) ∧
      ((∀ words < 2 ^ 63, ∃ bits, (c.withWords words).layout.imageBits = .ok bits) ↔
        c.layout.width ≤ 2)) :=
  ⟨fun _ => inRange.validate_eq_fault, Wiring.length_listed_le,
    fun valid => ⟨fun _ => validate_withWords valid, imageBits_withWords⟩⟩

/-- A bank whose selections need `2 ^ 64` bits. -/
def largeBank : Chip := { fallback with muxes := ⟨4, 0x4000000000000000⟩ }

theorem inRange_largeBank : largeBank.InRange :=
  ⟨by decide, by decide, by decide, by decide, by decide⟩

/-- The check of a chip can fault, and an accepted chip can have an image without a size. -/
theorem chip_numbers_overflow :
    largeBank.InRange ∧ largeBank.validate = .error (.fault .range) ∧
      (fallback.withWords 0x7fffffffffffffff).InRange ∧
      (fallback.withWords 0x7fffffffffffffff).validate = .ok () ∧
      (fallback.withWords 0x7fffffffffffffff).layout.imageBits = .error .range :=
  ⟨inRange_largeBank, rfl, ⟨by decide, by decide, by decide, by decide, by decide⟩, rfl, rfl⟩

theorem validate_faults_iff_overflow_largeBank :
    largeBank.InRange ∧ largeBank.SoundMuxes ∧ largeBank.Overflow .range ∧
      fallback.InRange ∧ fallback.validate = .ok () ∧
      (fallback.withWords 1000).validate = .ok () := by
  obtain ⟨muxes, -, -, overflow⟩ := ((validate_faults_iff_overflow inRange_largeBank).1 .range).1 rfl
  have inRange : fallback.InRange := ⟨by decide, by decide, by decide, by decide, by decide⟩
  have resized := ((validate_faults_iff_overflow inRange).2.2 rfl).1 1000 (by decide)
  exact ⟨inRange_largeBank, muxes, overflow, inRange, rfl, resized⟩

end FsmFabric.Chip
