import FsmFabric.Proofs.Chip.Checks
import FsmFabric.Proofs.Fabric.Allocation

/-!
# The fabric of a valid chip

A valid chip has one table for every pin, a multiplexer of the bank behind every pin, and no field
that reaches over the end of the word.
-/

namespace FsmFabric

namespace Chip

variable {c : Chip}

namespace SoundLuts

theorem exists_has (sound : c.SoundLuts) {pin : Nat} (lt : pin < c.totalPins) :
    ∃ (n : Nat) (t : Lut), c.luts[n]? = some t ∧ t.Has pin := by
  have tiles := tiles_sort.2 ⟨sound.beside, sound.inside⟩
  obtain ⟨r, member, has⟩ := tiles.covers (Nat.zero_le pin) (by rwa [sum_sort_pins, Nat.zero_add])
  obtain ⟨t, table, rfl⟩ := List.mem_map.1 ((Ordered.perm_sort _).mem_iff.1 member)
  obtain ⟨n, found⟩ := List.mem_iff_getElem?.1 table
  exact ⟨n, t, found, has⟩

theorem eq_of_has (sound : c.SoundLuts) {n n' pin : Nat} {t t' : Lut}
    (found : c.luts[n]? = some t) (found' : c.luts[n']? = some t') (has : t.Has pin)
    (has' : t'.Has pin) : n = n' := by
  obtain ⟨lt, rfl⟩ := List.getElem?_eq_some_iff.1 found
  obtain ⟨lt', rfl⟩ := List.getElem?_eq_some_iff.1 found'
  have beside := List.pairwise_iff_getElem.1 sound.beside
  unfold Lut.Beside at beside
  unfold Lut.Has at has has'
  rcases Nat.lt_trichotomy n n' with less | same | greater
  · have := beside n n' lt lt' less
    omega
  · exact same
  · have := beside n' n lt' lt greater
    omega

end SoundLuts

theorem sound_of_validate {bits : Nat} (valid : c.validate = .ok ())
    (sized : c.layout.imageBits = .ok bits) : c.layout.Sound := by
  obtain ⟨-, -, fields, -⟩ := validate_eq_ok.1 valid
  exact ⟨(Checked.within_eq_ok.1 sized).1, fun f member => (fields.inside f member).1⟩

end Chip

namespace Fabric

structure Regular (f : Fabric) : Prop where
  guards_pos : 0 < f.guards
  guards_le : f.guards ≤ f.luts.length
  selectBits : f.wiring.bank.selectBits ≤ Chip.maxSelectBits
  inside : ∀ t ∈ f.luts, t.firstPin + t.pins ≤ f.wiring.pinCount
  driven : ∀ mux ∈ f.wiring.drivers, mux < f.wiring.bank.count
  tiled : f.Tiled

/-- A chip has a fabric if its pins can be wired to tables and multiplexers. -/
theorem ofChip_eq_ok {c : Chip} {f : Fabric} :
    ofChip c = .ok f ↔ ∃ w, c.wiring = .ok w ∧
      (∀ t ∈ c.luts, t.firstPin + t.pins < Checked.limit ∧ t.firstPin + t.pins ≤ w.pinCount) ∧
      ∃ inputs, c.muxes.inputs = .ok inputs ∧
        f = { wiring := w, luts := c.luts, guards := c.staticLuts.length, inputs } := by
  have reads (w : Wiring) (t : Lut) : (do
      if w.pinCount < (← Checked.add t.firstPin t.pins) then
        refuse (.mismatch (.pinsOutside t.firstPin t.pins w.pinCount)) : Result Unit) = .ok () ↔
      t.firstPin + t.pins < Checked.limit ∧ t.firstPin + t.pins ≤ w.pinCount := by
    rw [bind_eq_ok]
    constructor
    · rintro ⟨stop, added, here⟩
      obtain ⟨small, rfl⟩ := Checked.within_eq_ok.1 (liftM_eq_ok.1 added)
      split at here
      · cases here
      · next room => exact ⟨small, Nat.le_of_not_lt room⟩
    · rintro ⟨small, room⟩
      exact ⟨_, liftM_eq_ok.2 (Checked.within_eq_ok.2 ⟨small, rfl⟩), if_neg (Nat.not_lt.2 room)⟩
  unfold ofChip
  rw [bind_eq_ok]
  constructor
  · rintro ⟨w, wired, built⟩
    obtain ⟨_, checked, built⟩ := bind_eq_ok.1 built
    obtain ⟨inputs, counted, built⟩ := bind_eq_ok.1 built
    exact ⟨w, wired, fun t member => (reads w t).1 (forM_eq_ok.1 checked t member), inputs,
      liftM_eq_ok.1 counted, (pure_eq_ok.1 built).symm⟩
  · rintro ⟨w, wired, inside, inputs, counted, rfl⟩
    exact ⟨w, wired, bind_eq_ok.2 ⟨(), forM_eq_ok.2 fun t member => (reads w t).2 (inside t member),
      bind_eq_ok.2 ⟨inputs, liftM_eq_ok.2 counted, rfl⟩⟩⟩

theorem regular_of_validate {c : Chip} {f : Fabric} (valid : c.validate = .ok ())
    (built : ofChip c = .ok f) : f.Regular ∧ f.wiring.bank = c.muxes := by
  obtain ⟨muxes, luts, -⟩ := Chip.validate_eq_ok.1 valid
  obtain ⟨w, wired, inside, inputs, -, rfl⟩ := ofChip_eq_ok.1 built
  rw [Chip.wiring_eq_resolve luts.small] at wired
  obtain ⟨bank, length, driven⟩ := Wiring.drivers_of_resolve wired
  refine ⟨⟨List.length_pos_iff.2 luts.static, by simp [Chip.luts], bank ▸ muxes.selectBits_le,
    fun t member => (inside t member).2, bank.symm ▸ driven, fun pin lt => ?_, ?_⟩, bank⟩
  · exact luts.exists_has (lt.trans_eq length)
  · intro n n' t t' pin found found' has has'
    exact luts.eq_of_has found found' has has'

/-- A valid chip has a fabric. -/
theorem exists_ofChip {c : Chip} (valid : c.validate = .ok ()) : ∃ f, ofChip c = .ok f := by
  obtain ⟨muxes, luts, -, -, w, wired⟩ := Chip.validate_eq_ok.1 valid
  have few := muxes.selectBits_le
  have inputs : c.muxes.inputs = .ok (1 <<< c.muxes.selectBits) :=
    Checked.twoPow_eq_ok.2 ⟨by unfold Chip.maxSelectBits at few; omega, rfl⟩
  have resolved := Chip.wiring_eq_resolve luts.small ▸ wired
  have length : w.pinCount = c.totalPins := (Wiring.drivers_of_resolve resolved).2.1
  refine ⟨_, ofChip_eq_ok.2 ⟨w, wired, fun t member => ?_, _, inputs, rfl⟩⟩
  have inside := luts.inside t member
  have small := luts.small
  omega

/-- The words of an image are made for the fabric. -/
structure Hosts (f : Fabric) (image : Image) : Prop where
  regular : f.Regular
  bank : image.muxes = f.wiring.bank
  sound : image.layout.Sound
  disjoint : image.layout.Disjoint
  inc : ∀ inc, image.layout.field? .inc 0 = some inc → 0 < inc.width

end Fabric

end FsmFabric
