import FsmFabric.Proofs.Fabric.Valid

/-!
# Which chips are accepted

In an accepted chip every pin belongs to one table and has a multiplexer, no pin is wired twice,
every field lies inside the word, the selections have a place, and the fabric can be built. A chip
that has all this is accepted, if none of its parts is empty.

A table without pins overlaps no other, wherever it starts, but the check wants it to start where
another one starts or ends. So an accepted chip may have such tables, and only the converse leaves
them out.
-/

namespace FsmFabric.Chip

variable {c : Chip} {n : Nat}

/-- The `n` pins, the wires and the fields of a chip fit together. -/
structure WellFormed (c : Chip) (n : Nat) : Prop where
  counted : c.pinCount = .ok n
  covered : ∀ pin < n, ∃! i : Nat, ∃ t : Lut, c.luts[i]? = some t ∧ t.Has pin
  within : ∀ t ∈ c.luts, t.firstPin + t.pins ≤ n
  driven : ∀ pin < n, Wiring.muxOf c.wires pin < c.muxes.count
  once : (c.wires.map Prod.fst).Nodup
  fields : ∀ f ∈ c.layout.fields, f.offset + f.width ≤ c.layout.width
  selections : c.HoldsSelections

/-- No part of the chip is empty, and none is too large. -/
structure Equipped (c : Chip) : Prop extends SoundMuxes c where
  static : c.staticLuts ≠ []
  pins : ∀ t ∈ c.luts, 1 ≤ t.pins ∧ t.pins ≤ maxPins
  words_pos : 0 < c.layout.words
  width_pos : 0 < c.layout.width

/-- Memory can hold a number for each of the `n` pins and for each multiplexer. -/
def Fits (c : Chip) (n : Nat) : Prop :=
  n * Wiring.numberBytes < 2 ^ 63 ∧ c.muxes.count * Wiring.numberBytes < 2 ^ 63

theorem wellFormed_of_validate (valid : c.validate = .ok ()) : c.WellFormed c.totalPins := by
  obtain ⟨-, luts, fields, selections, w, wired⟩ := validate_eq_ok.1 valid
  rw [wiring_eq_resolve luts.small] at wired
  obtain ⟨once, -, -, driven, -⟩ := Wiring.resolve_eq_ok.1 wired
  refine ⟨pinCount_eq_ok.2 ⟨rfl, luts.small⟩, fun pin lt => ?_, luts.inside, driven, once,
    fun f member => (fields.inside f member).1, selections⟩
  obtain ⟨i, t, found, has⟩ := luts.exists_has lt
  refine ⟨i, ⟨t, found, has⟩, ?_⟩
  rintro j ⟨u, found', has'⟩
  exact luts.eq_of_has found' found has' has

/-- Tables of which each has a pin and no two have the same lie beside each other. -/
theorem WellFormed.beside (wellFormed : c.WellFormed n) (pins : ∀ t ∈ c.luts, 1 ≤ t.pins) :
    c.luts.Pairwise Lut.Beside := by
  rw [List.pairwise_iff_getElem]
  intro i j lt lt' less
  unfold Lut.Beside
  by_contra overlap
  have some := pins _ (List.getElem_mem lt)
  have some' := pins _ (List.getElem_mem lt')
  have stop := wellFormed.within _ (List.getElem_mem lt)
  -- The table that starts later starts with a pin of the other one.
  obtain ⟨pin, has, has'⟩ : ∃ pin, c.luts[i].Has pin ∧ c.luts[j].Has pin := by
    refine ⟨max c.luts[i].firstPin c.luts[j].firstPin, ?_, ?_⟩ <;> unfold Lut.Has <;> omega
  have inside : pin < n := Nat.lt_of_lt_of_le has.2 stop
  have same := (wellFormed.covered pin inside).unique ⟨_, List.getElem?_eq_getElem lt, has⟩
    ⟨_, List.getElem?_eq_getElem lt', has'⟩
  omega

theorem validate_of_wellFormed (equipped : c.Equipped) (wellFormed : c.WellFormed n)
    (small : c.layout.width < Checked.limit) (fits : c.Fits n) : c.validate = .ok () := by
  obtain ⟨rfl, few⟩ := pinCount_eq_ok.1 wellFormed.counted
  have wired := Wiring.resolve_eq_ok.2
    ⟨wellFormed.once, fits.1, fits.2, wellFormed.driven, rfl⟩
  rw [← wiring_eq_resolve few] at wired
  refine validate_eq_ok.2 ⟨equipped.toSoundMuxes,
    ⟨equipped.static, fun t member => (equipped.pins t member).2,
      wellFormed.beside fun t member => (equipped.pins t member).1, wellFormed.within, few⟩,
    ⟨equipped.words_pos, equipped.width_pos, fun f member => ?_⟩, wellFormed.selections, _, wired⟩
  have inside := wellFormed.fields f member
  omega

/-- Accepted chips are well-formed and have a fabric. Well-formed chips without empty parts have a
fabric and are accepted, if memory can hold a number for every pin and multiplexer. -/
theorem validate_accepts_wellFormed (c : Chip) :
    (c.validate = .ok () → ∃ n, c.WellFormed n ∧ ∃ f, Fabric.ofChip c = .ok f ∧
      f.wiring.drivers = (List.range n).map (Wiring.muxOf c.wires)) ∧
    ∀ n, c.Equipped → c.WellFormed n → c.layout.width < Checked.limit →
      ((∃ f, Fabric.ofChip c = .ok f) ↔ c.Fits n) ∧ (c.Fits n → c.validate = .ok ()) := by
  constructor
  · intro valid
    obtain ⟨f, built⟩ := Fabric.exists_ofChip valid
    obtain ⟨-, luts, -⟩ := validate_eq_ok.1 valid
    obtain ⟨w, wired, -, inputs, -, rfl⟩ := Fabric.ofChip_eq_ok.1 built
    rw [wiring_eq_resolve luts.small] at wired
    obtain ⟨-, -, -, -, rfl⟩ := Wiring.resolve_eq_ok.1 wired
    exact ⟨_, wellFormed_of_validate valid, _, built, rfl⟩
  · intro n equipped wellFormed small
    have accepted := validate_of_wellFormed equipped wellFormed small
    refine ⟨⟨?_, fun fits => Fabric.exists_ofChip (accepted fits)⟩, accepted⟩
    rintro ⟨f, built⟩
    obtain ⟨w, wired, -⟩ := Fabric.ofChip_eq_ok.1 built
    obtain ⟨rfl, few⟩ := pinCount_eq_ok.1 wellFormed.counted
    rw [wiring_eq_resolve few] at wired
    obtain ⟨-, pinRoom, muxRoom, -⟩ := Wiring.resolve_eq_ok.1 wired
    exact ⟨pinRoom, muxRoom⟩

theorem validate_accepts_wellFormed_fallback :
    fallback.validate = .ok () ∧ fallback.Equipped ∧ ∃ n, fallback.WellFormed n ∧
      fallback.layout.width < Checked.limit ∧ fallback.Fits n := by
  obtain ⟨forward, backward⟩ := validate_accepts_wellFormed fallback
  obtain ⟨n, wellFormed, f, built, -⟩ := forward rfl
  have equipped : fallback.Equipped :=
    { count_pos := by decide, selectBits_pos := by decide, selectBits_le := by decide,
      wires := by decide, static := by decide, pins := by decide, words_pos := by decide,
      width_pos := by decide }
  have small : fallback.layout.width < Checked.limit := by decide
  obtain ⟨room, accepted⟩ := backward n equipped wellFormed small
  have fits := room.1 ⟨f, built⟩
  exact ⟨accepted fits, equipped, n, wellFormed, small, fits⟩

end FsmFabric.Chip
