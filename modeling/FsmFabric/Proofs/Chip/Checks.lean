import FsmFabric.Chip.Validate
import FsmFabric.Proofs.Chip.Resolve

/-!
# What a valid chip has

Each check of a chip passes exactly on the chips that have the property it looks for. The tables are
checked in the order of their pins: a table has to start where the ones before it end. In any order,
that says that no two tables overlap and that none ends past the number of pins.
-/

namespace FsmFabric

/-- The pins of one table all come before those of the other. -/
def Lut.Beside (t u : Lut) : Prop :=
  t.firstPin + t.pins ≤ u.firstPin ∨ u.firstPin + u.pins ≤ t.firstPin

namespace Chip

variable {c : Chip}

def totalPins (c : Chip) : Nat := (c.luts.map Lut.pins).sum

theorem pinCount_eq_ok {pins : Nat} :
    c.pinCount = .ok pins ↔ pins = c.totalPins ∧ c.totalPins < Checked.limit := by
  have general : ∀ (luts : List Lut) (n : Nat), n < Checked.limit →
      (luts.foldlM (fun n t => Checked.add n t.pins) n = .ok pins ↔
        pins = n + (luts.map Lut.pins).sum ∧ n + (luts.map Lut.pins).sum < Checked.limit) := by
    intro luts
    induction luts with
    | nil =>
      intro n small
      rw [List.foldlM_nil, pure_eq_ok]
      simp [small, eq_comm]
    | cons t rest ih =>
      intro n small
      rw [List.foldlM_cons, List.map_cons, List.sum_cons, ← Nat.add_assoc, bind_eq_ok]
      constructor
      · rintro ⟨m, added, counted⟩
        obtain ⟨small, rfl⟩ := Checked.within_eq_ok.1 added
        exact (ih _ small).1 counted
      · rintro ⟨rfl, small⟩
        have here : n + t.pins < Checked.limit := by omega
        exact ⟨_, Checked.within_eq_ok.2 ⟨here, rfl⟩, (ih _ here).2 ⟨rfl, small⟩⟩
  simpa [totalPins, pinCount] using general c.luts 0 (by decide)

theorem wiring_eq_resolve (small : c.totalPins < Checked.limit) :
    c.wiring = Wiring.resolve c.muxes c.totalPins c.wires := by
  have counted := pinCount_eq_ok.2 ⟨rfl, small⟩
  unfold wiring
  rw [counted]
  rfl

/-! ## Multiplexers -/

structure SoundMuxes (c : Chip) : Prop where
  count_pos : 0 < c.muxes.count
  selectBits_pos : 0 < c.muxes.selectBits
  selectBits_le : c.muxes.selectBits ≤ maxSelectBits
  wires : ∀ w ∈ c.wires, w.2 < c.muxes.count

theorem checkMuxes_eq_ok : c.checkMuxes = .ok () ↔ c.SoundMuxes := by
  unfold checkMuxes
  split
  · next empty =>
    refine ⟨nofun, fun sound => ?_⟩
    have := sound.count_pos
    have := sound.selectBits_pos
    omega
  · next some =>
    split
    · next wide => exact ⟨nofun, fun sound => absurd sound.selectBits_le (by omega)⟩
    · next narrow =>
      split
      · next pin mux found =>
        refine ⟨nofun, fun sound => ?_⟩
        have outside := List.find?_some found
        have inside := sound.wires _ (List.mem_of_find?_eq_some found)
        simp at outside
        omega
      · next none =>
        refine ⟨fun _ => ⟨by omega, by omega, by omega, fun w member => ?_⟩, fun _ => rfl⟩
        simpa using List.find?_eq_none.1 none w member

/-! ## Tables -/

/-- Runs of pins, given as offset and size, that leave no pin out from `next` on. -/
structure Tiles (next : Nat) (runs : List (Nat × Nat)) : Prop where
  ordered : runs.Pairwise fun r s => r.1 + r.2 ≤ s.1
  inside : ∀ r ∈ runs, next ≤ r.1 ∧ r.1 + r.2 ≤ next + (runs.map Prod.snd).sum

/-- One of several runs in order ends as far from the first one's start as all are long. -/
theorem exists_end_ge {run : Nat × Nat} {rest : List (Nat × Nat)}
    (ordered : (run :: rest).Pairwise fun r s => r.1 + r.2 ≤ s.1) :
    ∃ r ∈ run :: rest, run.1 + ((run :: rest).map Prod.snd).sum ≤ r.1 + r.2 := by
  induction rest generalizing run with
  | nil => exact ⟨run, List.mem_cons_self, by simp⟩
  | cons second rest ih =>
    obtain ⟨after, ordered⟩ := List.pairwise_cons.1 ordered
    obtain ⟨r, member, reached⟩ := ih ordered
    have next := after second List.mem_cons_self
    refine ⟨r, List.mem_cons_of_mem _ member, ?_⟩
    rw [List.map_cons, List.sum_cons]
    omega

theorem tiles_nil (next : Nat) : Tiles next [] := ⟨.nil, nofun⟩

/-- Tiling runs follow each other. -/
theorem tiles_cons {next offset size : Nat} {rest : List (Nat × Nat)} :
    Tiles next ((offset, size) :: rest) ↔ offset = next ∧ Tiles (offset + size) rest := by
  constructor
  · intro tiles
    obtain ⟨r, member, reached⟩ := exists_end_ge tiles.ordered
    have low := (tiles.inside _ List.mem_cons_self).1
    have high := (tiles.inside r member).2
    simp only at reached low
    obtain rfl : offset = next := by omega
    obtain ⟨after, ordered⟩ := List.pairwise_cons.1 tiles.ordered
    refine ⟨rfl, ordered, fun s later => ⟨after s later, ?_⟩⟩
    have stop := (tiles.inside s (List.mem_cons_of_mem _ later)).2
    rw [List.map_cons, List.sum_cons] at stop
    omega
  · rintro ⟨rfl, tiles⟩
    refine ⟨.cons (fun r later => (tiles.inside r later).1) tiles.ordered, ?_⟩
    rw [List.map_cons, List.sum_cons]
    refine List.forall_mem_cons.2 ⟨by simp only; omega, fun r later => ?_⟩
    have := tiles.inside r later
    omega

theorem Tiles.covers {next : Nat} {runs : List (Nat × Nat)} (tiles : Tiles next runs) {pin : Nat}
    (low : next ≤ pin) (high : pin < next + (runs.map Prod.snd).sum) :
    ∃ r ∈ runs, r.1 ≤ pin ∧ pin < r.1 + r.2 := by
  induction runs generalizing next with
  | nil => exact absurd high (by simpa using low)
  | cons run rest ih =>
    obtain ⟨offset, size⟩ := run
    obtain ⟨rfl, after⟩ := tiles_cons.1 tiles
    rw [List.map_cons, List.sum_cons] at high
    by_cases inside : pin < offset + size
    · exact ⟨_, List.mem_cons_self, low, inside⟩
    · obtain ⟨r, member, has⟩ := ih after (Nat.le_of_not_lt inside) (by omega)
      exact ⟨r, List.mem_cons_of_mem _ member, has⟩

theorem checkTiling_eq_ok {next : Nat} {runs : List (Nat × Nat)} (small : next < Checked.limit) :
    checkTiling next runs = .ok () ↔
      Tiles next runs ∧ next + (runs.map Prod.snd).sum < Checked.limit := by
  induction runs generalizing next with
  | nil => simp [checkTiling, tiles_nil, small]
  | cons run rest ih =>
    obtain ⟨offset, size⟩ := run
    rw [tiles_cons, List.map_cons, List.sum_cons]
    unfold checkTiling
    split
    · next here =>
      subst here
      rw [bind_eq_ok]
      constructor
      · rintro ⟨stop, added, checked⟩
        obtain ⟨small, rfl⟩ := Checked.within_eq_ok.1 (liftM_eq_ok.1 added)
        obtain ⟨tiles, total⟩ := (ih small).1 checked
        exact ⟨⟨rfl, tiles⟩, by simp only; omega⟩
      · rintro ⟨⟨-, tiles⟩, total⟩
        simp only at total
        have small : offset + size < Checked.limit := by omega
        exact ⟨_, liftM_eq_ok.2 (Checked.within_eq_ok.2 ⟨small, rfl⟩),
          (ih small).2 ⟨tiles, by omega⟩⟩
    · next gap => exact ⟨nofun, fun holds => absurd holds.1.1 gap⟩

theorem sum_sort_pins (luts : List Lut) :
    ((Ordered.sort (luts.map fun t => (t.firstPin, t.pins))).map Prod.snd).sum =
      (luts.map Lut.pins).sum := by
  rw [((Ordered.perm_sort _).map Prod.snd).sum_nat, List.map_map]
  rfl

/-- Tables tile the pins if they lie beside each other and end within the number of pins. -/
theorem tiles_sort {luts : List Lut} :
    Tiles 0 (Ordered.sort (luts.map fun t => (t.firstPin, t.pins))) ↔
      luts.Pairwise Lut.Beside ∧
        ∀ t ∈ luts, t.firstPin + t.pins ≤ (luts.map Lut.pins).sum := by
  have perm := Ordered.perm_sort (luts.map fun t => (t.firstPin, t.pins))
  have beside : luts.Pairwise Lut.Beside ↔
      (Ordered.sort (luts.map fun t => (t.firstPin, t.pins))).Pairwise
        fun r s => r.1 + r.2 ≤ s.1 ∨ s.1 + s.2 ≤ r.1 := by
    rw [perm.pairwise_iff Or.symm, List.pairwise_map]
    rfl
  have inside : (∀ t ∈ luts, t.firstPin + t.pins ≤ (luts.map Lut.pins).sum) ↔
      ∀ r ∈ Ordered.sort (luts.map fun t => (t.firstPin, t.pins)),
        r.1 + r.2 ≤ (luts.map Lut.pins).sum := by
    simp [perm.mem_iff]
  rw [beside, inside, ← sum_sort_pins]
  constructor
  · intro tiles
    refine ⟨tiles.ordered.imp .inl, fun r member => ?_⟩
    simpa using (tiles.inside r member).2
  · rintro ⟨beside, inside⟩
    refine ⟨?_, fun r member => ⟨Nat.zero_le _, by simpa using inside r member⟩⟩
    -- Of two tables that start at the same pin, the sort puts the one without pins first.
    refine (beside.and (Ordered.pairwise_sort _)).imp fun {r s} both => ?_
    have sorted := Ordered.le_iff.1 both.2
    have apart := both.1
    omega

structure SoundLuts (c : Chip) : Prop where
  static : c.staticLuts ≠ []
  few : ∀ t ∈ c.luts, t.pins ≤ maxPins
  beside : c.luts.Pairwise Lut.Beside
  inside : ∀ t ∈ c.luts, t.firstPin + t.pins ≤ c.totalPins
  small : c.totalPins < Checked.limit

theorem checkLuts_eq_ok : c.checkLuts = .ok () ↔ c.SoundLuts := by
  unfold checkLuts
  split
  · next empty => exact ⟨nofun, fun sound => absurd (List.isEmpty_iff.1 empty) sound.static⟩
  · next static =>
    split
    · next t found =>
      refine ⟨nofun, fun sound => ?_⟩
      have many := List.find?_some found
      have few := sound.few t (List.mem_of_find?_eq_some found)
      simp at many
      omega
    · next none =>
      have few : ∀ t ∈ c.luts, t.pins ≤ maxPins := by simpa using none
      rw [checkTiling_eq_ok (by decide), tiles_sort, sum_sort_pins, Nat.zero_add]
      rw [List.isEmpty_iff] at static
      exact ⟨fun ⟨⟨beside, inside⟩, small⟩ => ⟨static, few, beside, inside, small⟩,
        fun sound => ⟨⟨sound.beside, sound.inside⟩, sound.small⟩⟩

/-! ## Words -/

theorem checkFields_eq_ok {width : Nat} {fields : List Field} :
    checkFields width fields = .ok () ↔
      ∀ f ∈ fields, f.offset + f.width ≤ width ∧ f.offset + f.width < Checked.limit := by
  induction fields with
  | nil => exact ⟨fun _ => nofun, fun _ => rfl⟩
  | cons f rest ih =>
    rw [List.forall_mem_cons, ← ih, checkFields, bind_eq_ok]
    constructor
    · rintro ⟨stop, added, checked⟩
      obtain ⟨small, rfl⟩ := Checked.within_eq_ok.1 (liftM_eq_ok.1 added)
      split at checked
      · cases checked
      · next inside => exact ⟨⟨Nat.le_of_not_lt inside, small⟩, checked⟩
    · rintro ⟨⟨inside, small⟩, checked⟩
      refine ⟨_, liftM_eq_ok.2 (Checked.within_eq_ok.2 ⟨small, rfl⟩), ?_⟩
      rw [if_neg (Nat.not_lt.2 inside)]
      exact checked

structure SoundFields (c : Chip) : Prop where
  words_pos : 0 < c.layout.words
  width_pos : 0 < c.layout.width
  inside : ∀ f ∈ c.layout.fields,
    f.offset + f.width ≤ c.layout.width ∧ f.offset + f.width < Checked.limit

def HoldsSelections (c : Chip) : Prop :=
  ∃ f, c.layout.field? .mux 0 = some f ∧ c.muxes.selectBits * c.muxes.count ≤ f.width

theorem HoldsSelections.small (holds : c.HoldsSelections) (sound : c.SoundFields) :
    c.muxes.selectBits * c.muxes.count < Checked.limit := by
  obtain ⟨f, found, wide⟩ := holds
  have inside := sound.inside f (WordLayout.role_of_field? found).1
  omega

theorem checkLayout_eq_ok : c.checkLayout = .ok () ↔ c.SoundFields ∧ c.HoldsSelections := by
  unfold checkLayout
  split
  · next empty =>
    refine ⟨nofun, fun ⟨sound, _⟩ => ?_⟩
    have := sound.words_pos
    have := sound.width_pos
    omega
  · next some =>
    rw [bind_eq_ok]
    constructor
    · rintro ⟨_, fields, checked⟩
      refine ⟨⟨by omega, by omega, checkFields_eq_ok.1 fields⟩, ?_⟩
      split at checked
      · cases checked
      · next f found =>
        obtain ⟨needed, counted, checked⟩ := bind_eq_ok.1 checked
        obtain ⟨-, rfl⟩ := Checked.within_eq_ok.1 (liftM_eq_ok.1 counted)
        split at checked
        · cases checked
        · next wide => exact ⟨f, found, Nat.le_of_not_lt wide⟩
    · rintro ⟨sound, f, found, wide⟩
      have small := HoldsSelections.small ⟨f, found, wide⟩ sound
      have product : Checked.mul c.muxes.selectBits c.muxes.count = .ok _ :=
        Checked.within_eq_ok.2 ⟨small, rfl⟩
      refine ⟨(), checkFields_eq_ok.2 sound.inside, ?_⟩
      rw [found]
      refine bind_eq_ok.2 ⟨_, liftM_eq_ok.2 product, ?_⟩
      rw [if_neg (Nat.not_lt.2 wide)]
      rfl

theorem validate_eq_ok :
    c.validate = .ok () ↔ c.SoundMuxes ∧ c.SoundLuts ∧ c.SoundFields ∧ c.HoldsSelections ∧
      ∃ w, c.wiring = .ok w := by
  rw [← checkMuxes_eq_ok, ← checkLuts_eq_ok, ← and_assoc (a := c.SoundFields), ← checkLayout_eq_ok]
  unfold validate
  simp only [bind_eq_ok]
  constructor
  · rintro ⟨_, muxes, _, luts, _, layout, wired⟩
    refine ⟨muxes, luts, layout, ?_⟩
    split at wired
    · next w resolved => exact ⟨w, resolved⟩
    · cases wired
    · cases wired
  · rintro ⟨muxes, luts, layout, w, wired⟩
    refine ⟨(), muxes, (), luts, (), layout, ?_⟩
    rw [wired]
    rfl

end Chip

end FsmFabric
