import FsmFabric.Proofs.Chip.Overflow
import FsmFabric.Proofs.Compiler.Targets

/-!
# Compiling never faults

On a valid chip whose bits all have an index, compiling a replayed design ends with an image or with
a refusal. No table, pin, word or bit is looked up that does not exist, no number leaves its range,
and neither cutting states into words nor wiring inputs to pins goes on forever.

A message that shows what a table holds counts its digits first, three bits more than the table has.
Only a word that is almost as wide as there are indices leaves no room for that, and only if such
messages are kept.
-/

namespace FsmFabric

open Edit Assembler

/-! ## Valid chips -/

theorem Fabric.inRange_of_validate {c : Chip} {f : Fabric} (valid : c.validate = .ok ())
    (built : ofChip c = .ok f) : f.InRange := by
  obtain ⟨regular, bank⟩ := regular_of_validate valid built
  have inputs := inputs_of_ofChip built
  obtain ⟨muxes, luts, fields, selections, -⟩ := Chip.validate_eq_ok.1 valid
  obtain ⟨wiring, wired, -, _, -, rfl⟩ := ofChip_eq_ok.1 built
  rw [Chip.wiring_eq_resolve luts.small] at wired
  have few : c.muxes.selectBits ≤ 16 := muxes.selectBits_le
  have selectable : 2 ^ c.muxes.selectBits ≤ 2 ^ 16 := Nat.pow_le_pow_right Nat.two_pos few
  have pinCount := Wiring.pinCount_lt_of_resolve wired
  have limit : Checked.limit = 2 ^ 64 := rfl
  refine ⟨regular.tiled, regular.inside, fun t member => ?_, ?_, Checked.room_eq_ok.2 ?_, ?_⟩
  · have room : t.pins ≤ 16 := luts.few t member
    omega
  · rw [inputs]
    change _ + wiring.pinCount + 1 < _
    omega
  · rw [inputs, demandBytes]
    omega
  · rw [bank]
    exact selections.small fields

theorem WordLayout.Sound.inRange {layout : WordLayout} (sound : layout.Sound) {slot : Nat}
    (inside : slot < layout.words) :
    layout.InRange [.window (layout.startOf slot) layout.width] := by
  have last := startOf_add_le inside
  have small := sound.small
  refine ⟨Region.sound_window (by omega), fun field member => ?_⟩
  have := sound.inside field member
  omega

/-! ## A word -/

namespace Fabric

variable {faults : Prop} {f : Fabric} {layout : WordLayout} {word : Region} {e : StateEntry}
  {verbose : Bool}

theorem upholds_slotOf (target : Nat) :
    Upholds (fun a => a.verbose = verbose) (Matters False faults) (slotOf e target) := by
  apply Upholds.get_bind
  intro a _
  split
  · exact .pure _
  · split
    · apply Upholds.bind
      · exact .modify fun _ same => same
      intro _
      exact .pure _
    · exact .refuse id

theorem upholds_assembleJump (fine : faults → layout.InRange word) (n : Nat) (t : Transition) :
    Upholds (fun a => a.verbose = verbose) (Matters False faults)
      (assembleJump layout word e n t) := by
  apply Upholds.ofExcept_bind (layout.spares_require _ _)
  intro jump required
  apply (upholds_slotOf _).bind
  intro slot
  split
  · apply upholds_write _ fun _ _ same => same
    exact WordEdit.upholds_ofBits fun matters =>
      Region.upholds_writeNat ((fine matters).region required) slot
  · exact .refuse id

theorem upholds_assembleTransitions (fine : faults → layout.InRange word) (n : Nat)
    (ts : List Transition) :
    Upholds (fun a => a.verbose = verbose) (Matters False faults)
      (f.assembleTransitions layout word e n ts) := by
  induction ts generalizing n with
  | nil => exact .pure ()
  | cons t rest ih =>
    refine Upholds.bind ?_ fun _ => ih (n + 1)
    apply Upholds.bind
    · exact .modify fun _ same => same
    intro _
    apply Upholds.ofExcept_bind (layout.spares_require _ _)
    intro out required
    have written : Upholds (fun a => a.verbose = verbose) (Matters False faults)
        (Assembler.write (out.write word t.output)) := by
      apply upholds_write _ fun _ _ same => same
      exact out.upholds_write _ fun matters => (fine matters).region required
    split
    · exact (upholds_assembleJump fine n t).bind fun _ => written
    · exact written

theorem upholds_assemble
    (fine : faults → f.Secure layout word verbose ∧ e.ReadsOnly (· + 1 < Checked.limit)) :
    Upholds (fun a => a.verbose = verbose) (Matters False faults)
      (f.assemble layout word e) := by
  have debugs (message : String) : Upholds (fun a => a.verbose = verbose)
      (Matters False faults) (debug message) := .modify fun _ same => same
  unfold assemble
  apply (debugs _).bind
  intro _
  split
  · apply (debugs _).bind
    intro _
    apply Upholds.bind
    · exact upholds_assembleTransitions (fun matters => (fine matters).1.word) 0 _
    intro _ a same
    -- behind the transitions the words of the states stay as they are now
    obtain ⟨calm, kept⟩ := upholds_assembleRest fine a ⟨rfl, same⟩
    exact ⟨calm, fun v a' run => (kept v a' run).2⟩
  · exact .refuse id

end Fabric

/-! ## All words -/

theorem Builder.Reachable.readsOnly_wordEntries {b : Builder} {allowed : Nat → Prop}
    (reached : b.Reachable (·.ReadsOnly allowed)) (room words : Nat) :
    ∀ e ∈ b.wordEntries room words, e.ReadsOnly allowed := by
  have only := reached.readsOnly
  intro e member
  rcases List.mem_append.1 member with declared | spare
  · obtain ⟨⟨state, arm⟩, stored, placed⟩ := Placement.exists_of_mem_entries declared
    have whole : (b.entryOf state arm).ReadsOnly allowed :=
      ⟨reached.readsOnly_transitions state, (only.arms _ stored).conditionalOutputs⟩
    exact whole.chainWithin room _ e placed
  · obtain ⟨slot, -, rfl⟩ := List.mem_map.1 spare
    refine ⟨reached.readsOnly_transitions _, Arm.ReadsOnly.conditionalOutputs ?_⟩
    cases before : b.defaultArm with
    | none => exact only.shared
    | some arm => exact only.defaultArm arm before

namespace Compilation

variable {f : Fabric} {b : Builder} {layout : WordLayout} {verbose : Bool} {slot : Nat}
  {c c' : Compilation} {v : Unit}

def MadeFor (layout : WordLayout) (verbose : Bool) (c : Compilation) : Prop :=
  c.image.layout = layout ∧ c.verbose = verbose

theorem upholds_writeWord (inRange : f.InRange) (sound : layout.Sound)
    (printable : verbose = true → layout.width + 3 < Checked.limit) (inside : slot < layout.words)
    {e : StateEntry} (only : e.ReadsOnly (· + 1 < Checked.limit)) :
    Upholds (MadeFor layout verbose) (Matters False True) (writeWord f slot e) := by
  apply Upholds.get_bind
  rintro c ⟨same, -⟩
  apply Upholds.ofExcept_bind
  · apply spares_ofFault
    intro _
    unfold Image.wordRegion
    rw [same, if_pos inside, WordLayout.wordOffset_eq sound.small inside]
    exact ⟨_, rfl⟩
  intro word found
  have small := sound.small
  rw [← same] at small
  obtain ⟨-, rfl⟩ := Image.wordRegion_eq_ok small (liftM_eq_ok.1 found)
  rw [same]
  have secure : f.Secure layout [.window (layout.startOf slot) layout.width] verbose := by
    refine ⟨inRange, sound.inRange inside, fun reported field member => ?_⟩
    have := printable reported
    have := sound.inside field member
    omega
  have inner : Upholds (fun a => a.verbose = verbose)
      (fun x => Matters False True (x.mapError fun e => e))
      (f.assemble layout [.window (layout.startOf slot) layout.width] e) := by
    simpa only [Failure.mapError_id] using Fabric.upholds_assemble fun _ => ⟨secure, only⟩
  exact inner.zoom (fun c same => same.2) fun c a same _ => same

theorem upholds_writeWords (inRange : f.InRange) (sound : layout.Sound)
    (printable : verbose = true → layout.width + 3 < Checked.limit) {entries : List StateEntry}
    (inside : slot + entries.length ≤ layout.words)
    (only : ∀ e ∈ entries, e.ReadsOnly (· + 1 < Checked.limit)) :
    Upholds (MadeFor layout verbose) (Matters False True) (writeWords f slot entries) := by
  induction entries generalizing slot with
  | nil => exact .pure ()
  | cons e rest ih =>
    rw [List.length_cons] at inside
    obtain ⟨here, later⟩ := List.forall_mem_cons.1 only
    apply (upholds_writeWord inRange sound printable (by omega) here).bind
    intro _
    exact ih (by omega) later

theorem madeFor_of_prepare (made : MadeFor layout verbose c) (run : Runs (prepare f b) c v c') :
    MadeFor layout verbose c' ∧ (Placement.ofBuilder b f.guards).entries.length ≤ layout.words := by
  obtain ⟨enough, rfl⟩ := runs_prepare run
  exact ⟨made, made.1 ▸ enough⟩

/-- Writing a machine ends without a fault. -/
theorem not_fault_of_writeMachine (inRange : f.InRange) (sound : layout.Sound)
    (printable : verbose = true → layout.width + 3 < Checked.limit)
    (reached : b.Reachable (·.ReadsOnly (· + 1 < Checked.limit))) (made : MadeFor layout verbose c)
    {fault : Fault} : ¬ Fails (writeMachine f b) c (.fault fault) := by
  intro failed
  rw [writeMachine_eq] at failed
  rcases fails_bind.1 failed with early | ⟨_, c₁, prepared, failed⟩
  · obtain ⟨cause, same⟩ := refused_of_prepare early
    cases same
  · obtain ⟨made₁, enough⟩ := madeFor_of_prepare made prepared
    have failed := fails_get_bind.1 failed
    rw [made₁.1] at failed
    have fits : 0 + (b.wordEntries f.guards layout.words).length ≤ layout.words := by
      rw [Builder.wordEntries, List.length_append, List.length_map, List.length_range']
      omega
    have only := reached.readsOnly_wordEntries f.guards layout.words
    exact (upholds_writeWords inRange sound printable fits only c₁ made₁).1 _ failed trivial

end Compilation

/-! ## The compiler -/

namespace Session

variable {s : Session} {design : Design} {b : Builder}

theorem fails_of_compile {f : Fabric} {image : Image} (built : Fabric.ofChip s.chip = .ok f)
    (started : s.blankImage = .ok image) {failure : Failure Error}
    (compiled : s.compile b = .error failure) :
    Fails (Compilation.writeMachine f b) { image, verbose := s.verbose } failure := by
  have ready : (do return (← Fabric.ofChip s.chip, ← s.blankImage) : Result (Fabric × Image)) =
      .ok (f, image) := by
    rw [built, started]
    rfl
  unfold compile run at compiled
  rw [ready] at compiled
  dsimp only at compiled
  split at compiled
  · next outcome =>
    cases compiled
    exact congrArg Prod.fst outcome
  · cases compiled

/-- Compiling a replayed design on a valid chip gives an image or a refusal and never a fault. The
nodes of the diagram are all there, the chip has a fabric in which every pin has a table and a
multiplexer, every state is cut into finitely many words, and serving an input ends in every
allocation that is reached. A chip whose numbers come from a file is `printable`
(`Chip.InRange.printable`). -/
theorem compile_never_faults (valid : s.chip.validate = .ok ())
    (small : s.chip.layout.words * s.chip.layout.width < Checked.limit)
    (printable : s.verbose = true → s.chip.layout.width + 3 < Checked.limit)
    (replayed : design.replay = .ok b) (bounded : ∀ i ∈ design.reads, i + 1 < Checked.limit) :
    (∃ whole, b.draft.nodes.expand b.draft.root = .ok whole ∧ b.diagram = whole.diagram) ∧
    ∃ f, Fabric.ofChip s.chip = .ok f ∧ f.Regular ∧
      (∀ e : StateEntry, ∃ k, (∀ j < k, ((·.remainder f.guards)^[j] e).fits f.guards = false) ∧
        ((·.remainder f.guards)^[k] e).fits f.guards = true ∧
        (e.chain f.guards).length = k + 1) ∧
      (∀ place reads before input a,
        f.serveAll place reads before ⟨List.replicate f.wiring.pinCount none, Mask.empty⟩ = .ok a →
        f.Halts place input f.wiring.pinCount (f.demand reads input) a) ∧
      ((∃ image, s.compile b = .ok image) ∨ ∃ error, s.compile b = .error (.refused error)) := by
  have reached : b.Reachable (·.ReadsOnly (· + 1 < Checked.limit)) :=
    (Design.readsOnly_of_replay replayed).mono fun e only i read => bounded i (only i read)
  obtain ⟨focus, frames, asks⟩ := reached.exists_asks fun e only => only.simplify
  refine ⟨⟨_, asks.shown.expand_root, asks.shown.diagram⟩, ?_⟩
  obtain ⟨f, built⟩ := Fabric.exists_ofChip valid
  obtain ⟨regular, -⟩ := Fabric.regular_of_validate valid built
  have inRange := Fabric.inRange_of_validate valid built
  have sized : s.chip.layout.imageBits = .ok (s.chip.layout.words * s.chip.layout.width) :=
    Checked.within_eq_ok.2 ⟨small, rfl⟩
  refine ⟨f, built, regular, StateEntry.exists_remainder_fits regular.guards_pos, ?_, ?_⟩
  · intro place reads before input a served
    obtain ⟨allots, -⟩ := f.allots_start.serveAll regular.tiled served
    obtain ⟨waiting, waits, -⟩ := f.exists_waits reads input
    exact waits.halts regular.tiled allots place input (f.card_freePins_le a)
  · obtain ⟨image, started⟩ : ∃ image, s.blankImage = .ok image := by
      unfold blankImage Image.blank
      rw [sized]
      exact ⟨_, rfl⟩
    have made : Compilation.MadeFor s.chip.layout s.verbose { image, verbose := s.verbose } :=
      ⟨(of_blankImage started).1, rfl⟩
    cases compiled : s.compile b with
    | ok image => exact .inl ⟨image, rfl⟩
    | error failure =>
      cases failure with
      | refused error => exact .inr ⟨error, rfl⟩
      | fault fault =>
        exact absurd (fails_of_compile built started compiled)
          (Compilation.not_fault_of_writeMachine inRange (Chip.sound_of_validate valid sized)
            printable reached made)

theorem compile_never_faults_twoStates :
    oneTable.chip.validate = .ok () ∧ oneTable.chip.InRange ∧
      oneTable.chip.layout.words * oneTable.chip.layout.width < Checked.limit ∧
      oneTable.chip.layout.width + 3 < Checked.limit ∧ twoStates.reads = [0, 1] ∧
      ∃ b f, twoStates.replay = .ok b ∧ Fabric.ofChip oneTable.chip = .ok f ∧ f.Regular ∧
        ((∃ image, compile { oneTable with verbose := true } b = .ok image) ∨
          ∃ error, compile { oneTable with verbose := true } b = .error (.refused error)) := by
  have valid : oneTable.chip.validate = .ok () := rfl
  have small : oneTable.chip.layout.words * oneTable.chip.layout.width < Checked.limit := by decide
  have inRange : oneTable.chip.InRange := ⟨by decide, by decide, by decide, by decide, by decide⟩
  have printable := inRange.printable
  have reads : twoStates.reads = [0, 1] := rfl
  obtain ⟨b, replayed⟩ : ∃ b, twoStates.replay = .ok b := ⟨_, rfl⟩
  have bounded : ∀ i ∈ twoStates.reads, i + 1 < Checked.limit := by
    rw [reads]
    decide
  obtain ⟨-, f, built, regular, -, -, outcome⟩ :=
    compile_never_faults (s := { oneTable with verbose := true }) valid small (fun _ => printable)
      replayed bounded
  exact ⟨valid, inRange, small, printable, reads, b, f, replayed, built, regular, outcome⟩

end Session

end FsmFabric
