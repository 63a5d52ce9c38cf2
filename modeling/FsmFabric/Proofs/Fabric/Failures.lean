import FsmFabric.Proofs.Bits.Range
import FsmFabric.Proofs.Design.Reads
import FsmFabric.Proofs.Fabric.Assembly
import FsmFabric.Proofs.Fabric.Sharing

/-!
# What assembling a word fails with

Behind the transitions nothing jumps, so no target is refused there. Nor is there a fault, if the
fabric and the layout stay in range: every table finds its pins, every pin its table, and every bit
its index. `Matters` says both about one walk through the assembly.
-/

namespace FsmFabric

open Edit Assembler

/-- The failures that matter: refused jump targets if `undefined`, faults if `faults`, and no
others. -/
def Matters (undefined faults : Prop) : Failure Error → Prop
  | .refused (.undefinedTarget ..) => undefined
  | .refused _ => False
  | .fault _ => faults

theorem Failure.mapError_id {ε : Type} (x : Failure ε) : x.mapError (fun e => e) = x := by
  cases x <;> rfl

variable {undefined faults : Prop}

theorem spares_ofFault {α : Type} {r : Except Fault α} (fine : faults → ∃ a, r = .ok a) :
    Spares (Matters undefined faults) (liftM r : Result α) := by
  apply Spares.liftM
  intro fault failed matters
  obtain ⟨a, found⟩ := fine matters
  rw [found] at failed
  cases failed

/-! ## Bits -/

theorem WordLayout.spares_require (layout : WordLayout) (role : FieldRole) (n : Nat) :
    Spares (Matters undefined faults) (layout.require role n) := by
  unfold require
  split
  · exact .ok _
  · exact .error id

theorem WordEdit.upholds_ofBits {α : Type} {act : BitEdit α}
    (fine : faults → Upholds (fun _ => True) Failure.IsFault act) :
    Upholds (fun _ => True) (Matters undefined faults) (WordEdit.ofBits act) := by
  apply Upholds.mapError
  intro r _
  refine ⟨fun x failed => ?_, fun _ _ _ => trivial⟩
  cases x with
  | refused error => exact id
  | fault fault => exact fun matters => (fine matters r trivial).1 _ failed ⟨fault, rfl⟩

theorem Field.upholds_write (field : Field) {word : Region} (bits : Mask)
    (fine : faults → (field.region word).Sound) :
    Upholds (fun _ => True) (Matters undefined faults) (field.write word bits) :=
  WordEdit.upholds_ofBits fun matters => .forRange fun i _ _ =>
    Region.upholds_write (fine matters) i _

theorem Lut.spares_rowInputs {observed : Group} (row : Nat)
    (fine : faults → Region.Sound [.mapped observed]) :
    Spares (Matters undefined faults) (rowInputs observed row) := by
  intro x failed
  unfold rowInputs at failed
  split at failed
  · cases failed
  · next failure r outcome =>
    cases failed
    have written : Upholds (fun _ => True) (Matters undefined faults)
        (WordEdit.ofBits (Region.writeNat [.mapped observed] row)) :=
      WordEdit.upholds_ofBits fun matters => Region.upholds_writeNat (fine matters) row
    exact (written _ trivial).1 _ (congrArg Prod.fst outcome)

theorem Lut.upholds_program (t : Lut) {table : Region} {observed : Group} (condition : Expr)
    (fine : faults → table.Sound ∧ t.pins < 64 ∧ observed.size = t.pins ∧
      Region.Sound [.mapped observed]) :
    Upholds (fun _ => True) (Matters undefined faults) (t.program table observed condition) := by
  apply Upholds.ofExcept_bind
  · apply spares_ofFault
    intro matters
    obtain ⟨-, -, -, sound⟩ := fine matters
    exact ⟨_, (sound.inRange _ List.mem_cons_self).extent⟩
  intro pins counted
  split
  · next differs =>
    refine .ofExcept (spares_ofFault fun matters => absurd ?_ differs)
    obtain ⟨-, -, same, -⟩ := fine matters
    obtain ⟨-, rfl⟩ := Checked.within_eq_ok.1 (liftM_eq_ok.1 counted)
    exact same
  · apply Upholds.ofExcept_bind
    · apply spares_ofFault
      intro matters
      exact ⟨_, Checked.twoPow_eq_ok.2 ⟨(fine matters).2.1, rfl⟩⟩
    intro rows _
    apply Upholds.forRange
    intro row _ _
    apply Upholds.ofExcept_bind (spares_rowInputs row fun matters => (fine matters).2.2.2)
    intro inputs _
    exact WordEdit.upholds_ofBits fun matters => Region.upholds_write (fine matters).1 row _

/-- All positions in a word of this layout are in range. -/
structure WordLayout.InRange (layout : WordLayout) (word : Region) : Prop where
  word : word.Sound
  fields : ∀ field ∈ layout.fields, field.offset + field.width < Checked.limit

theorem WordLayout.InRange.small {layout : WordLayout} {word : Region}
    (inRange : layout.InRange word) {role : FieldRole} {n : Nat} {field : Field}
    (required : layout.require role n = .ok field) : field.offset + field.width < Checked.limit :=
  inRange.fields field (role_of_field? (field?_of_require required)).1

theorem WordLayout.InRange.region {layout : WordLayout} {word : Region}
    (inRange : layout.InRange word) {role : FieldRole} {n : Nat} {field : Field}
    (required : layout.require role n = .ok field) : (field.region word).Sound :=
  inRange.word.window (inRange.small required)

theorem MuxBank.upholds_program (bank : MuxBank) {layout : WordLayout} {word : Region}
    (selects : List Nat)
    (fine : faults → layout.InRange word ∧ bank.selectBits * bank.count < Checked.limit) :
    Upholds (fun _ => True) (Matters undefined faults) (bank.program layout word selects) := by
  apply MuxBank.upholds_program_of_select
  · apply spares_ofFault
    intro matters
    exact ⟨_, Checked.within_eq_ok.2 ⟨(fine matters).2, rfl⟩⟩
  · exact fun _ => id
  · exact fun _ _ _ _ => id
  intro field found wide value _ mux inBank
  have part := MuxBank.part_le inBank
  have member := (WordLayout.role_of_field? found).1
  apply Upholds.ofExcept_bind
  · apply spares_ofFault
    intro matters
    have small := (fine matters).1.fields field member
    have room : field.offset + mux * bank.selectBits < Checked.limit := by omega
    exact ⟨_, MuxBank.offset_eq_ok.2 ⟨room, rfl⟩⟩
  intro offset placed
  obtain ⟨-, rfl⟩ := MuxBank.offset_eq_ok.1 (liftM_eq_ok.1 placed)
  apply WordEdit.upholds_ofBits
  intro matters
  have small := (fine matters).1.fields field member
  have room : field.offset + mux * bank.selectBits + bank.selectBits < Checked.limit := by omega
  exact Region.upholds_writeNat ((fine matters).1.word.window room) value

theorem Wiring.upholds_program (w : Wiring) {layout : WordLayout} {word : Region}
    (assigned : List (Option Nat))
    (fine : faults → layout.InRange word ∧ w.bank.selectBits * w.bank.count < Checked.limit) :
    Upholds (fun _ => True) (Matters undefined faults) (w.program layout word assigned) := by
  have selections : Spares (fun e => Matters undefined faults (.refused e))
      (w.selections assigned) := by
    refine .bind (.foldlM fun chosen driven _ => ?_) fun chosen _ => .ok _
    obtain ⟨mux, pin⟩ := driven
    dsimp only
    split
    · exact .ok _
    · split
      · split
        · exact .ok _
        · exact .error id
      · exact .ok _
  refine .ofExcept_bind ?_ fun selects _ => w.bank.upholds_program selects fine
  intro x failed
  obtain ⟨e, refused, rfl⟩ := mapError_eq_error.1 failed
  exact selections e refused

namespace Fabric

variable {f : Fabric} {layout : WordLayout} {word : Region} {e : StateEntry} {slots : IdMap Nat}
  {verbose : Bool}

/-! ## Allocation -/

structure InRange (f : Fabric) : Prop where
  tiled : f.Tiled
  inside : ∀ t ∈ f.luts, t.firstPin + t.pins ≤ f.wiring.pinCount
  pins : ∀ t ∈ f.luts, t.pins < 64
  observed : f.inputs + f.wiring.pinCount + 1 < Checked.limit
  demands : Checked.room f.inputs demandBytes = .ok ()
  selects : f.wiring.bank.selectBits * f.wiring.bank.count < Checked.limit

theorem spares_serve (calm : ¬ faults) (place : Option Position) (input free : Nat) (d : Demand)
    (a : Allocation) : Spares (Matters undefined faults) (f.serve place input free d a) := by
  induction free generalizing d a with
  | zero =>
    unfold serve
    split
    · exact .ok _
    · split
      · next same => cases same
      · exact .error id
  | succ free ih =>
    unfold serve
    split
    · exact .ok _
    · split
      · next same =>
        cases same
        exact .bind (spares_ofFault fun matters => absurd matters calm) fun given _ => ih _ _
      · exact .error id

theorem spares_serveAll (fine : faults → f.Tiled) (place : Option Position)
    (reads : List (List Nat)) (inputs : List Nat) {a : Allocation} (allots : f.Allots a) :
    Spares (Matters undefined faults) (f.serveAll place reads inputs a) := by
  by_cases matters : faults
  · intro x failed
    rcases allots.exists_serveAll (fine matters) place reads inputs with
      ⟨a', served⟩ | ⟨failure, refused, _, _, _, _, -, -, _, _, -, -, -, rfl⟩
    · cases served.symm.trans failed
    · cases refused.symm.trans failed
      exact id
  · clear allots
    induction inputs generalizing a with
    | nil => exact .ok _
    | cons input rest ih =>
      exact .bind (spares_serve matters place input _ _ a) fun a' _ => ih

theorem spares_allocate (place : Option Position) {conditions : List (Option Expr)}
    (fine : faults → f.InRange ∧ ∀ c, some c ∈ conditions → c.ReadsOnly (· + 1 < Checked.limit)) :
    Spares (Matters undefined faults) (f.allocate place conditions) := by
  apply Spares.bind
  · exact spares_ofFault fun matters => ⟨(), (fine matters).1.demands⟩
  intro _ _
  apply Spares.bind
  · apply Spares.mapM
    intro table _
    apply Spares.bind
    · apply spares_ofFault
      intro matters
      cases found : (conditions[table.2]?).join with
      | none => exact ⟨_, rfl⟩
      | some c =>
        rw [Option.join_eq_some_iff] at found
        exact Expr.exists_support_iff.2 ((fine matters).2 c (List.mem_of_getElem? found))
    intro support _
    split
    · exact .error id
    · split
      · exact .error id
      · exact .ok _
  intro reads _
  apply Spares.bind
  · exact spares_serveAll (fun matters => (fine matters).1.tiled) place reads _ f.allots_start
  intro a _
  exact .ok _

/-- Every pin observes a number that has a successor in range. -/
theorem InRange.observations (inRange : f.InRange) {place : Option Position}
    {conditions : List (Option Expr)} {observed : List (Option Nat)}
    (done : f.allocate place conditions = .ok observed) :
    (f.observations observed).length = f.wiring.pinCount ∧
      ∀ i ∈ f.observations observed, i + 1 < Checked.limit := by
  obtain ⟨length, -, selectable, -⟩ := served_of_allocate inRange.tiled done
  have small := inRange.observed
  unfold Fabric.observations
  refine ⟨by rw [List.length_map, List.length_zipIdx, length], fun i member => ?_⟩
  obtain ⟨⟨input, pin⟩, listed, rfl⟩ := List.mem_map.1 member
  have here := List.mem_zipIdx_iff_getElem?.1 listed
  have inside := (List.getElem?_eq_some_iff.1 here).1
  cases input with
  | none =>
    change f.inputs + pin + 1 < Checked.limit
    omega
  | some i =>
    have below := selectable pin i here
    change i + 1 < Checked.limit
    omega

/-! ## Assembly -/

/-- Everything that is computed while a word is assembled is in range. -/
structure Secure (f : Fabric) (layout : WordLayout) (word : Region) (verbose : Bool) : Prop where
  fabric : f.InRange
  word : layout.InRange word
  reports : verbose = true → ∀ field ∈ layout.fields, field.width + 3 < Checked.limit

theorem upholds_write {α : Type} {act : WordEdit α}
    (fine : Upholds (fun _ => True) (Matters undefined faults) act) {inv : Assembly → Prop}
    (kept : ∀ a r, inv a → inv { a with register := r }) :
    Upholds inv (Matters undefined faults) (Assembler.write act) := by
  have inner : Upholds (fun _ => True)
      (fun x => Matters undefined faults (x.mapError fun e => e)) act := by
    simpa only [Failure.mapError_id] using fine
  exact inner.zoom (fun _ _ => trivial) fun a r holds _ => kept a r holds

def Stays (slots : IdMap Nat) (verbose : Bool) (a : Assembly) : Prop :=
  a.slots = slots ∧ a.verbose = verbose

theorem upholds_debug (message : String) :
    Upholds (Stays slots verbose) (Matters undefined faults) (debug message) :=
  .modify fun _ same => same

theorem upholds_assemblePartial (fine : faults → layout.InRange word) :
    Upholds (Stays slots verbose) (Matters undefined faults)
      (assemblePartial layout word e) := by
  apply Upholds.ofExcept_bind (layout.spares_require _ _)
  intro inc _
  apply Upholds.ofExcept_bind (layout.spares_require _ _)
  intro out required
  apply Upholds.bind
  · apply upholds_write _ fun _ _ same => same
    exact out.upholds_write _ fun matters => (fine matters).region required
  intro _
  apply upholds_write _ fun _ _ same => same
  exact WordEdit.upholds_ofBits fun matters => Region.upholds_write (fine matters).word _ _

theorem upholds_checkConditionals (place : Option Position) (cs : List ConditionalOutput) :
    Upholds (Stays slots verbose) (Matters undefined faults) (f.checkConditionals place cs) := by
  induction cs with
  | nil => exact .pure ()
  | cons c rest ih =>
    apply (upholds_debug _).bind
    intro _
    split
    · exact (Upholds.refuse id).bind fun _ => ih
    · exact ih

theorem upholds_assembleTable {observed : List Nat} (n : Nat) (t : Lut) (condition : Option Expr)
    (fine : faults → f.Secure layout word verbose ∧ t ∈ f.luts ∧
      observed.length = f.wiring.pinCount ∧ ∀ i ∈ observed, i + 1 < Checked.limit) :
    Upholds (Stays slots verbose) (Matters undefined faults)
      (f.assembleTable layout word (.table observed) n t condition) := by
  apply Upholds.ofExcept_bind
  · apply spares_ofFault
    intro matters
    obtain ⟨secure, member, length, -⟩ := fine matters
    have inside := secure.fabric.inside t member
    have small := secure.fabric.observed
    have stop : Checked.add t.firstPin t.pins = .ok (t.firstPin + t.pins) :=
      Checked.within_eq_ok.2 ⟨by omega, rfl⟩
    have extent : (Group.table observed).extent = .ok observed.length :=
      Checked.within_eq_ok.2 ⟨by change observed.length < _; omega, rfl⟩
    unfold Group.cut
    rw [stop, extent]
    exact ⟨_, if_pos (by omega)⟩
  intro pins cut
  obtain ⟨size, entries⟩ := entry_of_cut (liftM_eq_ok.1 cut)
  obtain ⟨-, inRange⟩ := inRange_of_cut (liftM_eq_ok.1 cut)
  apply Upholds.ofExcept_bind (layout.spares_require _ _)
  intro field required
  apply Upholds.bind
  · apply upholds_write _ fun _ _ same => same
    apply t.upholds_program
    intro matters
    obtain ⟨secure, member, -, bounded⟩ := fine matters
    have few := secure.fabric.pins t member
    refine ⟨secure.word.region required, few, size, Region.sound_mapped inRange ?_⟩
    intro p inside
    obtain ⟨i, found, entry⟩ := entries p (size ▸ inside)
    obtain rfl := Except.ok.inj ((inRange.entry inside).symm.trans entry)
    exact bounded _ (List.mem_of_getElem? found)
  intro _
  apply Upholds.get_bind
  intro a stays
  split
  · next reported =>
    apply Upholds.get_bind
    intro a' _
    apply Upholds.ofExcept_bind
    · apply spares_ofFault
      intro matters
      obtain ⟨secure, -⟩ := fine matters
      have member := (WordLayout.role_of_field? (WordLayout.field?_of_require required)).1
      exact Bits.exists_hex (secure.word.region required).inRange rfl
        (secure.reports (stays.2 ▸ reported) field member) true
    intro contents _
    exact upholds_debug _
  · exact .pure ()

theorem upholds_assembleTables {observed : List Nat} (conditions : List (Option Expr)) (n : Nat)
    {luts : List Lut}
    (fine : faults → f.Secure layout word verbose ∧ (∀ t ∈ luts, t ∈ f.luts) ∧
      observed.length = f.wiring.pinCount ∧ ∀ i ∈ observed, i + 1 < Checked.limit) :
    Upholds (Stays slots verbose) (Matters undefined faults)
      (f.assembleTables layout word (.table observed) conditions n luts) := by
  induction luts generalizing n with
  | nil => exact .pure ()
  | cons t rest ih =>
    apply Upholds.bind
    · apply upholds_assembleTable
      intro matters
      obtain ⟨secure, tables, known⟩ := fine matters
      exact ⟨secure, tables t List.mem_cons_self, known⟩
    intro _
    apply ih
    intro matters
    obtain ⟨secure, tables, known⟩ := fine matters
    exact ⟨secure, fun u later => tables u (List.mem_cons_of_mem t later), known⟩

theorem readsOnly_conditions {allowed : Nat → Prop} (only : e.ReadsOnly allowed) {c : Expr}
    (member : some c ∈ f.conditions e) : c.ReadsOnly allowed := by
  obtain ⟨n, -, found⟩ := List.mem_map.1 member
  split at found
  · obtain ⟨t, stored, rfl⟩ := Option.map_eq_some_iff.1 found
    exact only.transitions t (List.mem_of_getElem? stored)
  · obtain ⟨output, stored, rfl⟩ := Option.map_eq_some_iff.1 found
    exact only.conditionalOutputs output (List.mem_reverse.1 (List.mem_of_find?_eq_some stored))

theorem upholds_assembleLogic
    (fine : faults → f.Secure layout word verbose ∧ e.ReadsOnly (· + 1 < Checked.limit)) :
    Upholds (Stays slots verbose) (Matters undefined faults) (f.assembleLogic layout word e) := by
  apply (upholds_checkConditionals _ _).bind
  intro _
  apply Upholds.ofExcept_bind
  · apply spares_allocate
    intro matters
    obtain ⟨secure, only⟩ := fine matters
    exact ⟨secure.fabric, fun c => readsOnly_conditions only⟩
  intro observed done
  apply (upholds_debug _).bind
  intro _
  apply Upholds.bind
  · apply upholds_assembleTables
    intro matters
    obtain ⟨secure, -⟩ := fine matters
    exact ⟨secure, fun t member => member, secure.fabric.observations done⟩
  intro _
  apply (upholds_debug _).bind
  intro _
  apply Upholds.bind
  · exact .forM fun _ _ => upholds_debug _
  intro _
  apply upholds_write _ fun _ _ same => same
  apply f.wiring.upholds_program
  intro matters
  obtain ⟨secure, -⟩ := fine matters
  exact ⟨secure.word, secure.fabric.selects⟩

theorem upholds_assembleRest
    (fine : faults → f.Secure layout word verbose ∧ e.ReadsOnly (· + 1 < Checked.limit)) :
    Upholds (Stays slots verbose) (Matters undefined faults) (f.assembleRest layout word e) := by
  unfold assembleRest
  split
  · apply Upholds.bind
    · exact upholds_assemblePartial fun matters => (fine matters).1.word
    intro _
    exact upholds_assembleLogic fine
  · exact upholds_assembleLogic fine

end Fabric

end FsmFabric
