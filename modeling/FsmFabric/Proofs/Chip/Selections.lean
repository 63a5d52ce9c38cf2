import FsmFabric.Chip.Basic
import FsmFabric.Proofs.Bits.Range
import FsmFabric.Proofs.Bits.Span
import FsmFabric.Proofs.Chip.Resolve
import FsmFabric.Proofs.Image

/-!
# Selections that are read back

A word is programmed with the inputs that were given to its pins. This succeeds exactly if the word
has room for the selections, the pins of each multiplexer agree, and every input has a number that
can be selected. An image then decodes what was written, and every bit outside of the selections is
as before. Where the room is missing or pins disagree, not one bit is written: both are found out
before the first selection.
-/

namespace FsmFabric

open Edit

namespace MuxBank

variable {bank : MuxBank} {layout : WordLayout} {word : Region} {total start : Nat}
  {selects : List Nat} {bad : Failure Error → Prop}

def HasRoom (bank : MuxBank) (layout : WordLayout) : Prop :=
  ∃ field, layout.field? .mux 0 = some field ∧ bank.selectBits * bank.count ≤ field.width

theorem upholds_select (spans : word.Spans total start layout.width)
    (narrow : layout.width < Checked.limit) {field : Field}
    (inside : field.offset + field.width ≤ layout.width)
    (wide : bank.selectBits * bank.count ≤ field.width) {value mux : Nat}
    (inBank : mux < bank.count)
    (fine : value < 2 ^ bank.selectBits ∨ ∀ e, ¬ bad (.refused e)) :
    Upholds (Register.Fixed total) bad (bank.select field word (value, mux)) := by
  have part := MuxBank.part_le inBank
  have placed : field.offset + mux * bank.selectBits + bank.selectBits ≤ layout.width := by omega
  have offset : (Checked.mul mux bank.selectBits >>= Checked.add field.offset) =
      .ok (field.offset + mux * bank.selectBits) := offset_eq_ok.2 ⟨by omega, rfl⟩
  unfold select
  rw [offset, ofFault_ok_bind]
  apply Upholds.mapError
  apply (spans.window placed (by omega)).upholds_writeNat
  exact fine.imp Region.digitCount_le fun fine e => fine _

theorem upholds_program_of_spans (spans : word.Spans total start layout.width)
    (narrow : layout.width < Checked.limit)
    (inside : ∀ field ∈ layout.fields, field.offset + field.width ≤ layout.width)
    (small : bank.selectBits * bank.count < Checked.limit)
    (fine : (bank.HasRoom layout ∧ ∀ value ∈ selects, value < 2 ^ bank.selectBits) ∨
      ∀ e, ¬ bad (.refused e)) :
    Upholds (Register.Fixed total) bad (bank.program layout word selects) := by
  have product : Checked.mul bank.selectBits bank.count = .ok (bank.selectBits * bank.count) :=
    Checked.within_eq_ok.2 ⟨small, rfl⟩
  apply upholds_program_of_select
  · rw [product]
    exact .ok _
  · intro none
    rcases fine with ⟨⟨field, found, -⟩, -⟩ | fine
    · cases none.symm.trans found
    · exact fine _
  · intro field found short e
    rcases fine with ⟨⟨field', found', wide⟩, -⟩ | fine
    · cases found.symm.trans found'
      omega
    · exact fine _
  intro field found wide value listed mux inBank
  exact upholds_select spans narrow (inside field (WordLayout.role_of_field? found).1) wide inBank
    (fine.imp_left fun small => small.2 value listed)

/-- Every image that has the word decodes this selection from it. -/
def Decodes (bank : MuxBank) (layout : WordLayout) (word : Mask) (mux value : Nat) : Prop :=
  ∀ (image : Image) (index : Nat), image.layout = layout → image.muxes = bank →
    image.word index = .ok word → image.selection? index mux = .ok (some value)

theorem decodes_of_digits {m : Mask} {field : Field} (found : layout.field? .mux 0 = some field)
    (inside : field.offset + field.width ≤ layout.width) (narrow : layout.width < Checked.limit)
    (short : bank.selectBits ≤ 64) (wide : bank.selectBits * bank.count ≤ field.width)
    {mux value : Nat} (inBank : mux < bank.count) (small : value < 2 ^ bank.selectBits)
    (digits : ∀ i, i < bank.selectBits →
      m.get (start + field.offset + mux * bank.selectBits + i) = value.testBit i) :
    bank.Decodes layout (m.extract start layout.width) mux value := by
  intro image index sameLayout sameBank held
  subst sameLayout sameBank
  have part := MuxBank.part_le inBank
  rw [Image.selection?_of_word held found (by omega) inBank short wide,
    Image.valueAt_extract (by omega), ← Nat.add_assoc, Mask.valueAt_eq small digits]

end MuxBank

namespace Wiring

variable {bank : MuxBank} {pins : Nat} {pairs : List (Nat × Nat)} {w : Wiring}
  {layout : WordLayout} {word : Region} {start : Nat} {assigned : List (Option Nat)} {m : Mask}

/-- Every input that is given to a pin has a number that can be selected. -/
def Selectable (w : Wiring) (assigned : List (Option Nat)) : Prop :=
  ∀ (pin mux input : Nat), w.drivers[pin]? = some mux → assigned[pin]? = some (some input) →
    input < 2 ^ w.bank.selectBits

theorem agrees_of_selections (inBank : ∀ mux ∈ w.drivers, mux < w.bank.count) {selects : List Nat}
    (found : w.selections assigned = .ok selects) : w.Agrees assigned := by
  intro p q mux i j driverP driverQ here there
  have lt := inBank mux (List.mem_of_getElem? driverP)
  have selected := (get_selections found).2
  exact Option.some.inj ((selected p mux i driverP lt here).symm.trans
    (selected q mux j driverQ lt there))

theorem selections_lt (selectable : w.Selectable assigned) {selects : List Nat}
    (found : w.selections assigned = .ok selects)
    (idle : ∀ mux < w.bank.count, w.Idle assigned mux → selects[mux]? = some 0) :
    ∀ value ∈ selects, value < 2 ^ w.bank.selectBits := by
  intro value member
  obtain ⟨length, selected⟩ := get_selections found
  obtain ⟨mux, lt, rfl⟩ := List.getElem_of_mem member
  have here : selects[mux]? = some selects[mux] := List.getElem?_eq_getElem lt
  by_cases none : w.Idle assigned mux
  · rw [idle mux (length ▸ lt) none] at here
    rw [← Option.some.inj here]
    exact Nat.two_pow_pos _
  · unfold Idle at none
    push Not at none
    obtain ⟨pin, input, driver, given⟩ := none
    rw [selected pin mux input driver (length ▸ lt) given] at here
    rw [← Option.some.inj here]
    exact selectable pin mux input driver given

theorem program_eq {selects : List Nat} (found : w.selections assigned = .ok selects) :
    w.program layout word assigned = w.bank.program layout word selects := by
  unfold program
  rw [found]
  rfl

/-- Why nothing is written. A conflict comes before the look at the layout. -/
inductive Refuses (w : Wiring) (layout : WordLayout) (assigned : List (Option Nat)) : Error → Prop
  | conflict {mux i j : Nat} (conflicts : w.Conflicts assigned mux i j) :
    Refuses w layout assigned (.internal (.sharedMux mux i j))
  | missing (agrees : w.Agrees assigned) (none : layout.field? .mux 0 = none) :
    Refuses w layout assigned (.mismatch (.missingField .mux 0))
  | narrow (agrees : w.Agrees assigned) {field : Field}
    (found : layout.field? .mux 0 = some field)
    (short : field.width < w.bank.selectBits * w.bank.count) :
    Refuses w layout assigned (.mismatch (.muxField field.width w.bank.count w.bank.selectBits
      (w.bank.selectBits * w.bank.count)))

theorem exists_refuses (inBank : ∀ mux ∈ w.drivers, mux < w.bank.count)
    (small : w.bank.selectBits * w.bank.count < Checked.limit)
    (hopeless : ¬ (w.bank.HasRoom layout ∧ w.Agrees assigned)) (r : Register) :
    ∃ error, w.Refuses layout assigned error ∧
      (w.program layout word assigned).outcome r = (.error (.refused error), r) := by
  rcases w.selections_cases assigned with ⟨selects, found, -⟩ | ⟨mux, i, j, conflicts, found⟩
  · have agrees := agrees_of_selections inBank found
    have product : Checked.mul w.bank.selectBits w.bank.count =
        .ok (w.bank.selectBits * w.bank.count) := Checked.within_eq_ok.2 ⟨small, rfl⟩
    rw [program_eq found]
    unfold MuxBank.program WordLayout.require
    cases fields : layout.field? .mux 0 with
    | none => exact ⟨_, .missing agrees fields, rfl⟩
    | some field =>
      have short : field.width < w.bank.selectBits * w.bank.count := by
        by_contra wide
        exact hopeless ⟨⟨field, fields, Nat.le_of_not_lt wide⟩, agrees⟩
      refine ⟨_, .narrow agrees fields short, ?_⟩
      rw [product]
      show (if _ then _ else _ : WordEdit Unit).outcome r = _
      rw [if_pos short]
      rfl
  · refine ⟨_, .conflict conflicts, ?_⟩
    unfold program
    rw [found]
    rfl

/-- The selections can be read from the word, and nothing else was written. -/
structure Selected (w : Wiring) (layout : WordLayout) (start : Nat) (assigned : List (Option Nat))
    (m m' : Mask) : Prop where
  size : m'.size = m.size
  given : ∀ (pin mux input : Nat), w.drivers[pin]? = some mux → assigned[pin]? = some (some input) →
    w.bank.Decodes layout (m'.extract start layout.width) mux input
  idle : ∀ mux < w.bank.count, w.Idle assigned mux →
    w.bank.Decodes layout (m'.extract start layout.width) mux 0
  outside : ∀ field, layout.field? .mux 0 = some field → ∀ i, i < start + field.offset ∨
    start + field.offset + w.bank.count * w.bank.selectBits ≤ i → m'.get i = m.get i

section Programs

variable (narrow : layout.width < Checked.limit)
  (inside : ∀ field ∈ layout.fields, field.offset + field.width ≤ layout.width)

include narrow inside

theorem selected_of_program (inBank : ∀ mux ∈ w.drivers, mux < w.bank.count)
    (short : w.bank.selectBits ≤ 64) (starts : word.Starts start)
    (blank : layout.Blank start m .mux 0) {r : Register}
    (run : Runs (w.program layout word assigned) ⟨false, m⟩ () r) :
    w.bank.HasRoom layout ∧ w.Agrees assigned ∧ w.Selectable assigned ∧
      w.Selected layout start assigned m r.mask := by
  rcases w.selections_cases assigned with ⟨selects, found, idle⟩ | ⟨mux, i, j, conflicts, found⟩
  · rw [program_eq found] at run
    obtain ⟨length, selected⟩ := get_selections found
    obtain ⟨field, fields, wide, confined, outside, digits⟩ :=
      MuxBank.get_of_program starts rfl run blank length
    have within := inside field (WordLayout.role_of_field? fields).1
    refine ⟨⟨field, fields, wide⟩, agrees_of_selections inBank found, ?_,
      confined.size, ?_, ?_, ?_⟩
    · intro pin mux input driver given
      have lt := inBank mux (List.mem_of_getElem? driver)
      exact (digits mux input (selected pin mux input driver lt given)).1
    · intro pin mux input driver given
      have lt := inBank mux (List.mem_of_getElem? driver)
      obtain ⟨small, digits⟩ := digits mux input (selected pin mux input driver lt given)
      exact MuxBank.decodes_of_digits fields within narrow short wide lt small digits
    · intro mux lt none
      obtain ⟨small, digits⟩ := digits mux 0 (idle mux lt none)
      exact MuxBank.decodes_of_digits fields within narrow short wide lt small digits
    · intro field' fields'
      cases fields.symm.trans fields'
      exact outside
  · obtain ⟨selects, decided, -⟩ := runs_ofExcept_bind.1 run
    rw [found] at decided
    cases decided

theorem exists_runs_program
    (small : w.bank.selectBits * w.bank.count < Checked.limit)
    (spans : word.Spans m.size start layout.width) (room : w.bank.HasRoom layout)
    (agrees : w.Agrees assigned) (selectable : w.Selectable assigned) :
    ∃ r, Runs (w.program layout word assigned) ⟨false, m⟩ () r := by
  rcases w.selections_cases assigned with ⟨selects, found, idle⟩ | ⟨mux, i, j, conflicts, -⟩
  · have each := selections_lt selectable found idle
    have upholds : Upholds (Register.Fixed m.size) (fun _ => True)
        (w.bank.program layout word selects) :=
      MuxBank.upholds_program_of_spans spans narrow inside small (.inl ⟨room, each⟩)
    have fixed : Register.Fixed m.size ⟨false, m⟩ := ⟨rfl, rfl⟩
    obtain ⟨_, r, run⟩ := upholds.exists_runs fixed
    rw [program_eq found]
    exact ⟨r, run⟩
  · exact absurd agrees conflicts.not_agrees

theorem refused_of_fails
    (small : w.bank.selectBits * w.bank.count < Checked.limit)
    (spans : word.Spans m.size start layout.width) {x : Failure Error}
    (failed : Fails (w.program layout word assigned) ⟨false, m⟩ x) : ∃ error, x = .refused error := by
  cases x with
  | refused error => exact ⟨error, rfl⟩
  | fault fault =>
    rcases w.selections_cases assigned with ⟨selects, found, -⟩ | ⟨mux, i, j, -, found⟩
    · have upholds : Upholds (Register.Fixed m.size) Failure.IsFault
          (w.bank.program layout word selects) :=
        MuxBank.upholds_program_of_spans spans narrow inside small
          (.inr Failure.not_isFault_refused)
      rw [program_eq found] at failed
      exact absurd ⟨fault, rfl⟩ ((upholds _ ⟨rfl, rfl⟩).1 _ failed)
    · rcases fails_ofExcept_bind.1 failed with here | ⟨selects, decided, -⟩
      · rw [found] at here
        cases here
      · rw [found] at decided
        cases decided

end Programs

/-- A word is programmed exactly if it has room for the selections, the pins of each multiplexer
agree, and every input can be selected. The image then decodes for each pin the input that it was
given and for each idle multiplexer input 0, and no bit outside of the selections has changed.
Without room or agreement no bit changes at all. -/
theorem program_selects (resolved : resolve bank pins pairs = .ok w) (short : bank.selectBits ≤ 64)
    (small : bank.selectBits * bank.count < Checked.limit)
    (narrow : layout.width < Checked.limit)
    (inside : ∀ field ∈ layout.fields, field.offset + field.width ≤ layout.width)
    (starts : word.Starts start) (spans : word.Spans m.size start layout.width)
    (blank : layout.Blank start m .mux 0) (assigned : List (Option Nat)) :
    ((∃ r, Runs (w.program layout word assigned) ⟨false, m⟩ () r) ↔
      bank.HasRoom layout ∧ w.Agrees assigned ∧ w.Selectable assigned) ∧
    (∀ r, Runs (w.program layout word assigned) ⟨false, m⟩ () r →
      w.Selected layout start assigned m r.mask) ∧
    (∀ x, Fails (w.program layout word assigned) ⟨false, m⟩ x → ∃ error, x = .refused error) ∧
    (¬ (bank.HasRoom layout ∧ w.Agrees assigned) → ∃ error, w.Refuses layout assigned error ∧
      (w.program layout word assigned).outcome ⟨false, m⟩ =
        (.error (.refused error), ⟨false, m⟩)) := by
  obtain ⟨rfl, -, inBank⟩ := drivers_of_resolve resolved
  have selected {r : Register} (run : Runs (w.program layout word assigned) ⟨false, m⟩ () r) :=
    selected_of_program narrow inside inBank short starts blank run
  refine ⟨⟨?_, ?_⟩, fun r run => (selected run).2.2.2,
    fun x => refused_of_fails narrow inside small spans,
    fun hopeless => exists_refuses inBank small hopeless _⟩
  · intro ⟨r, run⟩
    obtain ⟨room, agrees, selectable, -⟩ := selected run
    exact ⟨room, agrees, selectable⟩
  · intro ⟨room, agrees, selectable⟩
    exact exists_runs_program narrow inside small spans room agrees selectable

/-- Pins 3, 4 and 11 share multiplexer 3. Two of them are given input 9, which word 0 of an empty
image then selects, while multiplexer 4 selects input 0. Where the third pin is given input 2, the
image stays empty. -/
theorem program_selects_threeShare :
    ∃ w r, resolve ⟨4, 7⟩ 14 Chip.fallback.wires = .ok w ∧
      Runs (w.program Chip.fallback.layout [.window 7896 168]
        [none, none, none, some 9, none, none, none, none, none, none, none, some 9])
        ⟨false, Mask.blank 8064⟩ () r ∧
      Image.selection? { bits := r.mask, layout := Chip.fallback.layout, muxes := ⟨4, 7⟩ } 0 3 =
        .ok (some 9) ∧
      Image.selection? { bits := r.mask, layout := Chip.fallback.layout, muxes := ⟨4, 7⟩ } 0 4 =
        .ok (some 0) ∧
      ∃ error, (w.program Chip.fallback.layout [.window 7896 168]
        [none, none, none, some 9, some 2]).outcome ⟨false, Mask.blank 8064⟩ =
          (.error (.refused error), ⟨false, Mask.blank 8064⟩) := by
  obtain ⟨w, resolved⟩ : ∃ w, resolve ⟨4, 7⟩ 14 Chip.fallback.wires = .ok w := ⟨_, rfl⟩
  have drivers : w.drivers = [0, 1, 2, 3, 3, 4, 5, 6, 0, 1, 2, 3, 5, 6] := by
    cases resolved
    rfl
  have sameBank := (drivers_of_resolve resolved).1
  have spans : Region.Spans [.window 7896 168] (Mask.blank 8064).size (0 + 7896) 168 := by
    rw [Mask.size_blank]
    exact (Region.spans_nil 8064).window (by decide) (by decide)
  have known := program_selects resolved (by decide) (by decide)
    (show Chip.fallback.layout.width < Checked.limit by decide) (by decide)
    (Region.starts_nil.window 7896 168) spans fun field found i lt => Mask.get_blank ..
  have given {i : Nat} (member : some i ∈ [none, none, none, some 9, none, none, none, none, none,
    none, none, some 9]) : i = 9 := by simpa using member
  obtain ⟨r, run⟩ := (known _).1.2 ⟨⟨⟨.mux, 1, 28⟩, rfl, by decide⟩,
    fun p q mux i j _ _ here there =>
      (given (List.mem_of_getElem? here)).trans (given (List.mem_of_getElem? there)).symm,
    fun pin mux input _ here => by
      rw [given (List.mem_of_getElem? here), sameBank]
      decide⟩
  have selected := (known _).2.1 r run
  have first : Chip.fallback.layout.startOf 0 = 0 + 7896 := by decide
  have held : Image.word { bits := r.mask, layout := Chip.fallback.layout, muxes := ⟨4, 7⟩ } 0 =
      .ok (r.mask.extract (0 + 7896) 168) := by
    rw [Image.word_eq (show 48 * 168 < Checked.limit by decide) (show 0 < 48 by decide), first]
    rfl
  have idle : w.Idle [none, none, none, some 9, none, none, none, none, none, none, none, some 9]
      4 := by
    intro pin input driver
    -- only pin 5 is driven by multiplexer 4
    rw [← mem_pinsOf, show w.pinsOf 4 = [5] by rw [pinsOf, drivers]; rfl,
      List.mem_singleton] at driver
    subst driver
    intro same
    cases same
  have conflicts : w.Conflicts [none, none, none, some 9, some 2] 3 9 2 :=
    ⟨by decide, 3, 4, by rw [drivers]; rfl, by rw [drivers]; rfl, rfl, rfl⟩
  obtain ⟨error, -, unchanged⟩ := (known _).2.2.2 fun both => conflicts.not_agrees both.2
  exact ⟨w, r, resolved, run,
    selected.given 3 3 9 (by rw [drivers]; rfl) rfl _ 0 rfl sameBank.symm held,
    selected.idle 4 (by rw [sameBank]; decide) idle _ 0 rfl sameBank.symm held, error, unchanged⟩

end Wiring

end FsmFabric
