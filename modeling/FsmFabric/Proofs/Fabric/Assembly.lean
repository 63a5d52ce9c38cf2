import FsmFabric.Fabric.Assembly
import FsmFabric.Proofs.Chip.Lut
import FsmFabric.Proofs.Fabric.Allocation

/-!
# What an assembled word holds

Each part of `Fabric.assemble` fills certain fields of the word and leaves the others alone. Where
no two fields share a bit, every field therefore holds in the end what its part wrote into it.
-/

namespace FsmFabric

open Edit

namespace Assembler

theorem runs_write {α : Type} {act : WordEdit α} {a a' : Assembly} {v : α} :
    Runs (write act) a v a' ↔ ∃ r, Runs act a.register v r ∧ { a with register := r } = a' :=
  runs_zoom

theorem runs_debug_bind {α : Type} {message : String} {next : Unit → Assembler α}
    {a a' : Assembly} {v : α} :
    Runs (debug message >>= next) a v a' ↔
      Runs (next ()) { a with log := if a.verbose then ⟨.debug, message⟩ :: a.log else a.log } v a' :=
  runs_modify_bind

theorem runs_debug {message : String} {a a' : Assembly} {v : Unit} :
    Runs (debug message) a v a' ↔
      { a with log := if a.verbose then ⟨.debug, message⟩ :: a.log else a.log } = a' :=
  runs_modify

end Assembler

open Assembler

namespace Fabric

variable {f : Fabric} {layout : WordLayout} {word : Region} {start : Nat} {e : StateEntry}
  {a a' : Assembly} {v : Unit}

def transitionFields (first count : Nat) (role : FieldRole) (n : Nat) : Prop :=
  (role = .jmp ∨ role = .out) ∧ first ≤ n ∧ n < first + count

/-- The word of a state is known afterwards; nothing changes if the state of the entry has one. -/
theorem find?_of_slotOf {target slot : Nat} (run : Runs (slotOf e target) a slot a') :
    a'.register = a.register ∧ a'.slots.find? target = some slot ∧
      (a.slots.find? e.id ≠ none → a'.slots = a.slots) := by
  have run := runs_get_bind.1 run
  split at run
  · next found =>
    obtain ⟨rfl, rfl⟩ := runs_pure.1 run
    exact ⟨rfl, found, fun _ => rfl⟩
  · next unknown =>
    split at run
    · next same =>
      have run := runs_modify_bind.1 run
      obtain ⟨rfl, rfl⟩ := runs_pure.1 run
      subst same
      refine ⟨rfl, ?_, fun known => absurd unknown known⟩
      rw [IdMap.find?_insert, if_pos rfl]
    · exact absurd run runs_refuse

/-- A jump field holds the word of its target. -/
theorem reads_of_assembleJump (starts : word.Starts start) {n : Nat} {t : Transition}
    (run : Runs (assembleJump layout word e n t) a v a') (fixed : a.register.growable = false)
    (blank : layout.Blank start a.register.mask .jmp n) :
    a.register.Confined layout start (fun role m => role = .jmp ∧ m = n) a'.register ∧
      (a.slots.find? e.id ≠ none → a'.slots = a.slots) ∧
      ∃ field slot, a'.slots.find? t.target = some slot ∧ slot < 2 ^ field.width ∧
        layout.Reads start a'.register.mask .jmp n field slot.testBit := by
  obtain ⟨field, required, run⟩ := runs_ofExcept_bind.1 run
  have found := WordLayout.field?_of_require required
  obtain ⟨slot, a₁, located, run⟩ := runs_bind.1 run
  obtain ⟨same, target, slots⟩ := find?_of_slotOf located
  split at run
  · obtain ⟨r, written, rfl⟩ := runs_write.1 run
    rw [same] at written
    obtain ⟨fits, patched⟩ := Region.patched_of_writeNat starts fixed (runs_mapError.1 written)
    exact ⟨Register.Patched.confined 0 patched found ⟨rfl, rfl⟩ (by omega), slots, field, slot,
      target, Region.lt_two_pow_of_digitCount_le fits, patched.reads found blank⟩
  · exact absurd run runs_refuse

/-- What the fields of transition `n` hold. -/
structure Writes (f : Fabric) (layout : WordLayout) (start : Nat) (slots : IdMap Nat) (m : Mask)
    (n : Nat) (t : Transition) : Prop where
  out : ∃ field, layout.Reads start m .out n field t.output.get
  jump : n ≠ f.guards → ∃ field slot, slots.find? t.target = some slot ∧ slot < 2 ^ field.width ∧
    layout.Reads start m .jmp n field slot.testBit

theorem Writes.confined {fields : FieldRole → Nat → Prop} {r r' : Register} {slots : IdMap Nat}
    {n : Nat} {t : Transition} (writes : f.Writes layout start slots r.mask n t)
    (confined : r.Confined layout start fields r') (disjoint : layout.Disjoint)
    (out : ¬ fields .out n) (jmp : ¬ fields .jmp n) : f.Writes layout start slots r'.mask n t where
  out := writes.out.imp fun _ reads => confined.reads disjoint out reads
  jump guard := by
    obtain ⟨field, slot, found, fits, reads⟩ := writes.jump guard
    exact ⟨field, slot, found, fits, confined.reads disjoint jmp reads⟩

theorem writes_of_assembleTransition (starts : word.Starts start) (disjoint : layout.Disjoint)
    {n : Nat} {t : Transition} (run : Runs (f.assembleTransition layout word e n t) a v a')
    (fixed : a.register.growable = false) (blank : layout.Blank start a.register.mask .jmp n) :
    a.register.Confined layout start (transitionFields n 1) a'.register ∧
      (a.slots.find? e.id ≠ none → a'.slots = a.slots ∧
        f.Writes layout start a.slots a'.register.mask n t) := by
  have run := runs_debug_bind.1 run
  obtain ⟨out, required, run⟩ := runs_ofExcept_bind.1 run
  have found := WordLayout.field?_of_require required
  have jumpField : ∀ role m, role = .jmp ∧ m = n → transitionFields n 1 role m := by
    rintro _ _ ⟨rfl, rfl⟩
    exact ⟨.inl rfl, le_rfl, by omega⟩
  have outField : ∀ role m, role = .out ∧ m = n → transitionFields n 1 role m := by
    rintro _ _ ⟨rfl, rfl⟩
    exact ⟨.inr rfl, le_rfl, by omega⟩
  split at run
  · next guard =>
    obtain ⟨_, a₁, jumped, run⟩ := runs_bind.1 run
    obtain ⟨confined₁, slots, field, slot, target, fits, reads⟩ :=
      reads_of_assembleJump starts jumped fixed blank
    obtain ⟨r, written, rfl⟩ := runs_write.1 run
    obtain ⟨readsOut, confined₂⟩ :=
      Field.reads_of_write starts (confined₁.growable.trans fixed) written found
    refine ⟨(confined₁.mono jumpField).trans (confined₂.mono outField), fun known => ?_⟩
    refine ⟨slots known, ⟨out, readsOut⟩, fun _ => ?_⟩
    rw [slots known] at target
    exact ⟨field, slot, target, fits, confined₂.reads disjoint (fun h => nomatch h.1) reads⟩
  · next past =>
    obtain ⟨r, written, rfl⟩ := runs_write.1 run
    obtain ⟨readsOut, confined⟩ := Field.reads_of_write starts fixed written found
    exact ⟨confined.mono outField, fun _ => ⟨rfl, ⟨out, readsOut⟩, fun guard => absurd guard past⟩⟩

/-- What the fields of all transitions hold. -/
theorem writes_of_assembleTransitions (starts : word.Starts start) (disjoint : layout.Disjoint)
    {ts : List Transition} {first : Nat}
    (run : Runs (f.assembleTransitions layout word e first ts) a v a')
    (fixed : a.register.growable = false)
    (blank : ∀ n, first ≤ n → layout.Blank start a.register.mask .jmp n) :
    a.register.Confined layout start (transitionFields first ts.length) a'.register ∧
      (a.slots.find? e.id ≠ none → a'.slots = a.slots ∧
        ∀ (k : Nat) (t : Transition), ts[k]? = some t →
          f.Writes layout start a.slots a'.register.mask (first + k) t) := by
  induction ts generalizing a first with
  | nil =>
    obtain ⟨-, rfl⟩ := runs_pure.1 run
    exact ⟨.refl _, fun _ => ⟨rfl, fun k t found => by simp at found⟩⟩
  | cons t rest ih =>
    obtain ⟨_, a₁, here, run⟩ := runs_bind.1 run
    obtain ⟨confined₁, content₁⟩ :=
      writes_of_assembleTransition starts disjoint here fixed (blank first le_rfl)
    have blank₁ : ∀ n, first + 1 ≤ n → layout.Blank start a₁.register.mask .jmp n := fun n later =>
      confined₁.blank disjoint (fun touched => by have := touched.2.2; omega) (blank n (by omega))
    obtain ⟨confined₂, content₂⟩ := ih run (confined₁.growable.trans fixed) blank₁
    refine ⟨(confined₁.mono fun role n touched => ?_).trans
      (confined₂.mono fun role n touched => ?_), fun known => ?_⟩
    · exact ⟨touched.1, touched.2.1, by have := touched.2.2; simp only [List.length_cons]; omega⟩
    · exact ⟨touched.1, by have := touched.2.1; omega,
        by have := touched.2.2; simp only [List.length_cons]; omega⟩
    · obtain ⟨slots₁, writes₁⟩ := content₁ known
      obtain ⟨slots₂, writes₂⟩ := content₂ (slots₁ ▸ known)
      refine ⟨slots₂.trans slots₁, fun k t' found => ?_⟩
      cases k with
      | zero =>
        cases found
        exact writes₁.confined confined₂ disjoint (fun touched => by have := touched.2.1; omega)
          (fun touched => by have := touched.2.1; omega)
      | succ k =>
        rw [← slots₁, Nat.add_comm k 1, ← Nat.add_assoc]
        exact writes₂ k t' (by simpa using found)

/-- The fields that let control go on to the next word. -/
def partialFields (e : StateEntry) (role : FieldRole) (n : Nat) : Prop :=
  (role = .out ∧ n = e.transitions.length) ∨ (role = .inc ∧ n = 0)

theorem reads_of_assemblePartial (starts : word.Starts start)
    (run : Runs (assemblePartial layout word e) a v a') (fixed : a.register.growable = false)
    (wide : ∀ field, layout.field? .inc 0 = some field → 0 < field.width) :
    a.register.Confined layout start (partialFields e) a'.register ∧ a'.slots = a.slots ∧
      ∃ field, layout.field? .inc 0 = some field ∧
        a'.register.mask.get (start + field.offset) = true := by
  obtain ⟨inc, requiredInc, run⟩ := runs_ofExcept_bind.1 run
  obtain ⟨out, requiredOut, run⟩ := runs_ofExcept_bind.1 run
  have foundInc := WordLayout.field?_of_require requiredInc
  have foundOut := WordLayout.field?_of_require requiredOut
  obtain ⟨_, a₁, outputs, run⟩ := runs_bind.1 run
  obtain ⟨r₁, written, rfl⟩ := runs_write.1 outputs
  obtain ⟨r₂, set, rfl⟩ := runs_write.1 run
  obtain ⟨-, confined₁⟩ := Field.reads_of_write starts fixed written foundOut
  have patched := Region.patched_of_write starts (confined₁.growable.trans fixed)
    (runs_mapError.1 set)
  have confined₂ : r₁.Confined layout start (partialFields e) r₂ :=
    Register.Patched.confined 0 patched foundInc (.inr ⟨rfl, rfl⟩) (wide inc foundInc)
  exact ⟨(confined₁.mono fun _ _ => .inl).trans confined₂, rfl, inc, foundInc,
    patched.inside 0 Nat.one_pos⟩

/-- Table `n` holds the values of a condition: where the pins of the table observe all its inputs,
the row that stands for some inputs has the value of the condition for them. -/
def Programs (layout : WordLayout) (start : Nat) (m : Mask) (n : Nat) (t : Lut)
    (observed : List Nat) (condition : Expr) : Prop :=
  ∃ field, layout.field? .cfg n = some field ∧ 2 ^ t.pins ≤ field.width ∧
    ∀ (row : Nat) (x : Nat → Bool), row < 2 ^ t.pins →
      (∀ p, p < t.pins → ∃ i, observed[t.firstPin + p]? = some i ∧ row.testBit p = x i) →
      (∀ i ∈ condition.reads, ∃ p, p < t.pins ∧ observed[t.firstPin + p]? = some i) →
      m.get (start + field.offset + row) = condition.holds x

theorem Programs.confined {fields : FieldRole → Nat → Prop} {r r' : Register} {n : Nat} {t : Lut}
    {observed : List Nat} {condition : Expr}
    (programs : Programs layout start r.mask n t observed condition)
    (confined : r.Confined layout start fields r') (disjoint : layout.Disjoint)
    (cfg : ¬ fields .cfg n) : Programs layout start r'.mask n t observed condition := by
  obtain ⟨field, found, room, rows⟩ := programs
  refine ⟨field, found, room, fun row x inside digits observes => ?_⟩
  rw [confined.get_eq disjoint found cfg (by omega)]
  exact rows row x inside digits observes

section Cut

variable {observed : List Nat} {first count : Nat} {g : Group}

theorem inRange_of_cut (cut : (Group.table observed).cut first count = .ok g) :
    g = .slice (.table observed) first count ∧ g.InRange := by
  obtain ⟨stop, added, cut⟩ := bind_eq_ok.1 cut
  obtain ⟨-, rfl⟩ := Checked.within_eq_ok.1 added
  obtain ⟨room, extent, cut⟩ := bind_eq_ok.1 cut
  obtain ⟨small, rfl⟩ := Checked.within_eq_ok.1 extent
  split at cut
  · next inside =>
    cases cut
    exact ⟨rfl, inside, small⟩
  · cases cut

/-- A run of pins cut out of the observed inputs. -/
theorem entry_of_cut (cut : (Group.table observed).cut first count = .ok g) :
    g.size = count ∧ ∀ p, p < count → ∃ i, observed[first + p]? = some i ∧ g.entry p = .ok i := by
  obtain ⟨rfl, inRange⟩ := inRange_of_cut cut
  refine ⟨rfl, fun p lt => ?_⟩
  have inside : first + p < observed.length := by
    have fits : first + count ≤ observed.length := inRange.1
    omega
  refine ⟨observed[first + p], List.getElem?_eq_getElem inside, ?_⟩
  rw [inRange.entry lt]
  simp [Group.target, inside]

end Cut

theorem programs_of_assembleTable (starts : word.Starts start) {observed : List Nat} {n : Nat}
    {t : Lut} {condition : Option Expr}
    (run : Runs (f.assembleTable layout word (.table observed) n t condition) a v a')
    (fixed : a.register.growable = false) :
    a.register.Confined layout start (fun role m => role = .cfg ∧ m = n) a'.register ∧
      a'.slots = a.slots ∧
      Programs layout start a'.register.mask n t observed
        (condition.getD (.literal (n < f.guards))) := by
  obtain ⟨pins, cut, run⟩ := runs_ofFault_bind.1 run
  obtain ⟨size, entries⟩ := entry_of_cut cut
  obtain ⟨field, required, run⟩ := runs_ofExcept_bind.1 run
  have found := WordLayout.field?_of_require required
  obtain ⟨_, a₁, programmed, run⟩ := runs_bind.1 run
  obtain ⟨r, written, rfl⟩ := runs_write.1 programmed
  have run := runs_get_bind.1 run
  obtain ⟨register, slots⟩ : a'.register = r ∧ a'.slots = a.slots := by
    split at run
    · have run := runs_get_bind.1 run
      obtain ⟨contents, -, run⟩ := runs_ofFault_bind.1 run
      obtain rfl := runs_debug.1 run
      exact ⟨rfl, rfl⟩
    · obtain ⟨-, rfl⟩ := runs_pure.1 run
      exact ⟨rfl, rfl⟩
  rw [register]
  obtain ⟨-, room, patched, rows⟩ := Lut.patched_of_program starts fixed written
  refine ⟨Register.Patched.confined 0 patched found ⟨rfl, rfl⟩ (by omega), slots, field, found, room,
    ?_⟩
  intro row x inside digits observes
  obtain ⟨inputs, rowInputs⟩ := rows row inside
  rw [patched.inside row inside, Lut.rowValue, rowInputs]
  -- the group hands out the observed inputs, so it can be read as a function
  have entry : ∀ p, p < pins.size → pins.entry p = .ok ((observed[t.firstPin + p]?).getD 0) := by
    intro p pin
    obtain ⟨i, here, entry⟩ := entries p (size ▸ pin)
    rw [entry, here, Option.getD_some]
  refine Lut.holds_rowInputs rowInputs entry (fun p pin => ?_) fun i member => ?_
  · obtain ⟨i, here, digit⟩ := digits p (size ▸ pin)
    rw [digit, here, Option.getD_some]
  · obtain ⟨p, pin, here⟩ := observes i member
    exact ⟨p, size.symm ▸ pin, by rw [here, Option.getD_some]⟩

def conditionOf (f : Fabric) (conditions : List (Option Expr)) (n : Nat) : Expr :=
  (conditions[n]?).join.getD (.literal (n < f.guards))

theorem programs_of_assembleTables (starts : word.Starts start) (disjoint : layout.Disjoint)
    {observed : List Nat} {conditions : List (Option Expr)} {luts : List Lut} {first : Nat}
    (run : Runs (f.assembleTables layout word (.table observed) conditions first luts) a v a')
    (fixed : a.register.growable = false) :
    a.register.Confined layout start (fun role n => role = .cfg ∧ first ≤ n) a'.register ∧
      a'.slots = a.slots ∧
      ∀ (k : Nat) (t : Lut), luts[k]? = some t →
        Programs layout start a'.register.mask (first + k) t observed
          (f.conditionOf conditions (first + k)) := by
  induction luts generalizing a first with
  | nil =>
    obtain ⟨-, rfl⟩ := runs_pure.1 run
    exact ⟨.refl _, rfl, fun k t found => by simp at found⟩
  | cons t rest ih =>
    obtain ⟨_, a₁, here, run⟩ := runs_bind.1 run
    obtain ⟨confined₁, slots₁, programs₁⟩ := programs_of_assembleTable starts here fixed
    obtain ⟨confined₂, slots₂, programs₂⟩ := ih run (confined₁.growable.trans fixed)
    refine ⟨(confined₁.mono fun role n touched => ⟨touched.1, touched.2.ge⟩).trans
      (confined₂.mono fun role n touched => ⟨touched.1, by have := touched.2; omega⟩),
      slots₂.trans slots₁, fun k t' found => ?_⟩
    cases k with
    | zero =>
      cases found
      exact programs₁.confined confined₂ disjoint fun touched => by have := touched.2; omega
    | succ k =>
      rw [Nat.add_comm k 1, ← Nat.add_assoc]
      exact programs₂ k t' (by simpa using found)

theorem kept_of_checkConditionals {place : Option Position} {cs : List ConditionalOutput}
    (run : Runs (f.checkConditionals place cs) a v a') :
    a'.register = a.register ∧ a'.slots = a.slots := by
  induction cs generalizing a with
  | nil =>
    obtain ⟨-, rfl⟩ := runs_pure.1 run
    exact ⟨rfl, rfl⟩
  | cons c rest ih =>
    have run := runs_debug_bind.1 run
    split at run
    · obtain ⟨_, _, refused, -⟩ := runs_bind.1 run
      exact absurd refused runs_refuse
    · have kept := ih run
      exact kept

theorem kept_of_reports {wires : List (Option Nat × Nat)}
    (run : Runs (wires.forM fun (input, pin) => debug (f.wireReport pin input)) a v a') :
    a'.register = a.register ∧ a'.slots = a.slots := by
  induction wires generalizing a with
  | nil =>
    obtain ⟨-, rfl⟩ := runs_pure.1 run
    exact ⟨rfl, rfl⟩
  | cons wire rest ih =>
    obtain ⟨a₁, here, run⟩ := runs_forM_cons.1 run
    obtain rfl := runs_debug.1 here
    have kept := ih run
    exact kept

/-- Every multiplexer that drives a pin selects the input that the pin observes. -/
def Selects (f : Fabric) (layout : WordLayout) (start : Nat) (m : Mask)
    (observed : List (Option Nat)) : Prop :=
  ∃ field, layout.field? .mux 0 = some field ∧
    f.wiring.bank.selectBits * f.wiring.bank.count ≤ field.width ∧
    ∀ (pin mux input : Nat), f.wiring.drivers[pin]? = some mux →
      observed[pin]? = some (some input) → input < 2 ^ f.wiring.bank.selectBits ∧
        ∀ i, i < f.wiring.bank.selectBits →
          m.get (start + field.offset + mux * f.wiring.bank.selectBits + i) = input.testBit i

theorem selects_of_program (starts : word.Starts start) {observed : List (Option Nat)}
    {r r' : Register} (driven : ∀ mux ∈ f.wiring.drivers, mux < f.wiring.bank.count)
    (run : Runs (f.wiring.program layout word observed) r v r') (fixed : r.growable = false)
    (blank : layout.Blank start r.mask .mux 0) :
    r.Confined layout start (fun role n => role = .mux ∧ n = 0) r' ∧
      f.Selects layout start r'.mask observed := by
  obtain ⟨selects, selected, run⟩ := runs_ofExcept_bind.1 run
  have selected : f.wiring.selections observed = .ok selects := by
    cases found : f.wiring.selections observed with
    | error e =>
      rw [found] at selected
      cases selected
    | ok l =>
      rw [found] at selected
      exact congrArg _ (Except.ok.inj selected)
  obtain ⟨length, inputs⟩ := Wiring.get_selections selected
  obtain ⟨field, found, room, confined, -, holds⟩ :=
    MuxBank.get_of_program starts fixed run blank length
  refine ⟨confined, field, found, room, fun pin mux input driver assigned => ?_⟩
  exact holds mux input
    (inputs pin mux input driver (driven mux (List.mem_of_getElem? driver)) assigned)

/-- The tables and multiplexers of a word serve the conditions of an entry. -/
def Wired (f : Fabric) (layout : WordLayout) (start : Nat) (e : StateEntry) (m : Mask) : Prop :=
  ∃ observed, f.allocate e.place (f.conditions e) = .ok observed ∧
    (∀ (n : Nat) (t : Lut), f.luts[n]? = some t →
      Programs layout start m n t (f.observations observed) (f.conditionOf (f.conditions e) n)) ∧
    f.Selects layout start m observed

theorem wired_of_assembleLogic (starts : word.Starts start) (disjoint : layout.Disjoint)
    (driven : ∀ mux ∈ f.wiring.drivers, mux < f.wiring.bank.count)
    (run : Runs (f.assembleLogic layout word e) a v a')
    (fixed : a.register.growable = false) (blank : layout.Blank start a.register.mask .mux 0) :
    a.register.Confined layout start (fun role _ => role = .cfg ∨ role = .mux) a'.register ∧
      a'.slots = a.slots ∧ f.Wired layout start e a'.register.mask := by
  obtain ⟨_, a₁, checked, run⟩ := runs_bind.1 run
  obtain ⟨register₁, slots₁⟩ := kept_of_checkConditionals checked
  obtain ⟨observed, allocated, run⟩ := runs_ofExcept_bind.1 run
  have run := runs_debug_bind.1 run
  obtain ⟨_, a₂, tables, run⟩ := runs_bind.1 run
  rw [← register₁] at fixed blank
  obtain ⟨confined₂, slots₂, programs⟩ := programs_of_assembleTables starts disjoint tables fixed
  have run := runs_debug_bind.1 run
  obtain ⟨_, a₃, reported, run⟩ := runs_bind.1 run
  obtain ⟨register₃, slots₃⟩ := kept_of_reports reported
  obtain ⟨r, wired, rfl⟩ := runs_write.1 run
  rw [register₃] at wired
  obtain ⟨confined₄, selects⟩ := selects_of_program starts driven wired
    (confined₂.growable.trans fixed) (confined₂.blank disjoint (fun touched => nomatch touched.1) blank)
  refine ⟨register₁ ▸ (confined₂.mono fun _ _ touched => .inl touched.1).trans
    (confined₄.mono fun _ _ touched => .inr touched.1), (slots₃.trans slots₂).trans slots₁,
    observed, allocated, fun n t found => ?_, selects⟩
  have here := programs n t found
  rw [Nat.zero_add] at here
  exact here.confined confined₄ disjoint fun touched => nomatch touched.1

/-- A word that holds an entry. -/
structure Assembled (f : Fabric) (layout : WordLayout) (start : Nat) (slots : IdMap Nat)
    (e : StateEntry) (m : Mask) : Prop where
  fits : e.fits f.guards = true
  writes : ∀ (n : Nat) (t : Transition), e.transitions[n]? = some t →
    f.Writes layout start slots m n t
  inc : ∀ field, layout.field? .inc 0 = some field → m.get (start + field.offset) = e.isPartial
  continued : e.isPartial = true → ∃ field, layout.field? .inc 0 = some field
  wired : f.Wired layout start e m

/-- Assembling an entry into an empty word changes only fields of the word. If the state of the entry
has a word, the entry is in the word afterwards. -/
theorem assembled_of_assemble (starts : word.Starts start) (disjoint : layout.Disjoint)
    (driven : ∀ mux ∈ f.wiring.drivers, mux < f.wiring.bank.count)
    (wide : ∀ field, layout.field? .inc 0 = some field → 0 < field.width)
    (run : Runs (f.assemble layout word e) a v a') (fixed : a.register.growable = false)
    (blank : ∀ role n, layout.Blank start a.register.mask role n) :
    a.register.Confined layout start (fun _ _ => True) a'.register ∧
      (a.slots.find? e.id ≠ none → a'.slots = a.slots ∧
        f.Assembled layout start a.slots e a'.register.mask) := by
  have run := runs_debug_bind.1 run
  split at run
  · next fits =>
    have run := runs_debug_bind.1 run
    obtain ⟨_, a₁, transitions, run⟩ := runs_bind.1 run
    obtain ⟨confined₁, content⟩ := writes_of_assembleTransitions starts disjoint transitions fixed
      fun n _ => blank .jmp n
    have fixed₁ := confined₁.growable.trans fixed
    have writes : a.slots.find? e.id ≠ none → ∀ {r : Register} {fields : FieldRole → Nat → Prop},
        a₁.register.Confined layout start fields r →
        (∀ n, n < e.transitions.length → ¬ fields .out n ∧ ¬ fields .jmp n) →
        ∀ (n : Nat) (t : Transition), e.transitions[n]? = some t →
          f.Writes layout start a.slots r.mask n t := by
      intro known r fields confined untouched n t found
      obtain ⟨lt, -⟩ := List.getElem?_eq_some_iff.1 found
      have here := (content known).2 n t found
      rw [Nat.zero_add] at here
      exact here.confined confined disjoint (untouched n lt).1 (untouched n lt).2
    unfold assembleRest at run
    split at run
    · next isPartial =>
      obtain ⟨_, a₂, goesOn, run⟩ := runs_bind.1 run
      obtain ⟨confined₂, slots₂, inc, foundInc, set⟩ :=
        reads_of_assemblePartial starts goesOn fixed₁ wide
      have mux₂ : layout.Blank start a₂.register.mask .mux 0 :=
        (confined₁.union confined₂).blank disjoint (by simp [transitionFields, partialFields])
          (blank .mux 0)
      obtain ⟨confined₃, slots₃, wired⟩ :=
        wired_of_assembleLogic starts disjoint driven run (confined₂.growable.trans fixed₁) mux₂
      refine ⟨(confined₁.union (confined₂.union confined₃)).mono fun _ _ _ => trivial,
        fun known => ⟨(slots₃.trans slots₂).trans (content known).1, fits,
          writes known (confined₂.union confined₃) fun n lt => ?_, fun field found => ?_,
          fun _ => ⟨inc, foundInc⟩, wired⟩⟩
      · constructor <;> simp [partialFields, lt.ne]
      · obtain rfl : inc = field := Option.some.inj (foundInc.symm.trans found)
        rw [isPartial, ← set]
        exact confined₃.get_eq disjoint found (by simp) (wide _ found)
    · next whole =>
      obtain ⟨confined₃, slots₃, wired⟩ := wired_of_assembleLogic starts disjoint driven run fixed₁
        (confined₁.blank disjoint (by simp [transitionFields]) (blank .mux 0))
      refine ⟨(confined₁.union confined₃).mono fun _ _ _ => trivial,
        fun known => ⟨slots₃.trans (content known).1, fits,
          writes known confined₃ fun n lt => ⟨by simp, by simp⟩, fun field found => ?_,
          fun goesOn => absurd goesOn whole, wired⟩⟩
      have inc := (confined₁.union confined₃).blank disjoint (by simp [transitionFields])
        (blank .inc 0)
      rw [Bool.eq_false_iff.2 whole]
      exact inc field found 0 (wide field found)
  · exact absurd run runs_refuse

end Fabric

end FsmFabric
