import FsmFabric.Proofs.Fabric.Assembly
import FsmFabric.Proofs.Fabric.Valid

/-!
# Bits that no entry reaches

Five kinds of writers fill a word, each with offsets of its own, and any of them can fail halfway.
Every single bit that is written lies in a field that belongs to the entry. So whether an entry is
assembled or refused, all other bits of the register are as before.
-/

namespace FsmFabric

open Edit Assembler

variable {layout : WordLayout} {word : Region} {start : Nat} {fields : FieldRole → Nat → Prop}
  {old : Register} {role : FieldRole} {n : Nat} {field : Field}

/-! ## Writers -/

section Writers

variable (starts : word.Starts start) (fixed : old.growable = false)
  (found : layout.field? role n = some field) (touched : fields role n)

include fixed found touched

/-- A bit that can only land in a field of the word. -/
theorem Region.maintains_write {region : Region} {i : Nat} (value : Bool)
    (landing : ∀ (r : Register) position, r.growable = false → r.locate region i = .ok position →
      position < r.mask.size ∧ ∃ k < field.width, position = start + field.offset + k) :
    Maintains (old.Confined layout start fields) (region.write i value) := by
  apply Region.maintains_of_put
  intro r position confined located
  obtain ⟨inside, k, short, rfl⟩ := landing r position (confined.growable.trans fixed) located
  exact confined.trans ((Register.patched_put inside value).confined k found touched short)

include starts

theorem Region.maintains_window {offset size : Nat} (inside : offset + size ≤ field.width) (i : Nat)
    (value : Bool) : Maintains (old.Confined layout start fields)
      (Region.write (.window (field.offset + offset) size :: word) i value) := by
  apply Region.maintains_write fixed found touched
  intro r position fixed located
  obtain ⟨rfl, short⟩ := starts.window (field.offset + offset) size r fixed i position located
  exact ⟨short, offset + i, by have := (Register.locate_window.1 located).1; omega, by omega⟩

theorem Field.maintains_region (i : Nat) (value : Bool) :
    Maintains (old.Confined layout start fields) ((field.region word).write i value) :=
  Region.maintains_window starts fixed found touched (Nat.le_of_eq (Nat.zero_add _)) i value

theorem Field.maintains_write (bits : Mask) :
    Maintains (old.Confined layout start fields) (field.write word bits) := by
  apply Maintains.mapError
  apply Maintains.forRange
  intro i
  exact Field.maintains_region starts fixed found touched i _

theorem Field.maintains_writeNat (value : Nat) :
    Maintains (old.Confined layout start fields)
      (WordEdit.ofBits ((field.region word).writeNat value)) := by
  apply Maintains.mapError
  apply Maintains.forRange
  intro i
  exact Field.maintains_region starts fixed found touched i _

theorem Lut.maintains_program (t : Lut) (observed : Group) (condition : Expr) :
    Maintains (old.Confined layout start fields)
      (t.program (field.region word) observed condition) := by
  apply Maintains.ofExcept_bind
  intro pins _
  split
  · exact .ofExcept _
  apply Maintains.ofExcept_bind
  intro rows _
  apply Maintains.forRange
  intro row
  apply Maintains.ofExcept_bind
  intro inputs _
  apply Maintains.mapError
  exact Field.maintains_region starts fixed found touched row _

end Writers

theorem MuxBank.maintains_program (starts : word.Starts start) (fixed : old.growable = false)
    (touched : fields .mux 0) (bank : MuxBank) (selects : List Nat) :
    Maintains (old.Confined layout start fields) (bank.program layout word selects) := by
  apply Maintains.ofExcept_bind
  intro field required
  have found := WordLayout.field?_of_require required
  apply Maintains.ofExcept_bind
  intro needed counted
  obtain ⟨-, rfl⟩ := Checked.within_eq_ok.1 (liftM_eq_ok.1 counted)
  split
  · exact .refuse _
  · next wide =>
    apply Maintains.forM
    intro selected member
    have part := MuxBank.part_le (lt_count_of_mem member)
    apply Maintains.ofExcept_bind
    intro offset placed
    obtain ⟨-, rfl⟩ := offset_eq_ok.1 (liftM_eq_ok.1 placed)
    apply Maintains.mapError
    apply Maintains.forRange
    intro i
    exact Region.maintains_window starts fixed found touched (by omega) i _

/-! ## Entries -/

/-- The fields that belong to an entry in a word with some guards and tables. A transition after the
last guard has no jump, and only a partial entry has an output for the case that no table fires and a
flag to go on. -/
def StateEntry.MayFill (e : StateEntry) (guards tables : Nat) : FieldRole → Nat → Prop
  | .jmp, n => n < e.transitions.length ∧ n ≠ guards
  | .out, n => n < e.transitions.length ∨ e.isPartial ∧ n = e.transitions.length
  | .inc, n => e.isPartial ∧ n = 0
  | .cfg, n => n < tables
  | .mux, n => n = 0

instance (e : StateEntry) (guards tables : Nat) (role : FieldRole) (n : Nat) :
    Decidable (e.MayFill guards tables role n) :=
  match role with
  | .jmp => inferInstanceAs (Decidable (n < e.transitions.length ∧ n ≠ guards))
  | .out => inferInstanceAs (Decidable
      (n < e.transitions.length ∨ e.isPartial ∧ n = e.transitions.length))
  | .inc => inferInstanceAs (Decidable (e.isPartial ∧ n = 0))
  | .cfg => inferInstanceAs (Decidable (n < tables))
  | .mux => inferInstanceAs (Decidable (n = 0))

namespace Fabric

variable {f : Fabric} {e : StateEntry}

def Inside (layout : WordLayout) (start : Nat) (fields : FieldRole → Nat → Prop) (old : Register)
    (a : Assembly) : Prop := old.Confined layout start fields a.register

theorem maintains_write {α : Type} {act : WordEdit α}
    (inner : Maintains (old.Confined layout start fields) act) :
    Maintains (Inside layout start fields old) (Assembler.write act) :=
  inner.zoom (fun _ holds => holds) fun _ _ _ holds => holds

theorem maintains_debug (message : String) :
    Maintains (Inside layout start fields old) (debug message) :=
  .modify fun _ holds => holds

theorem maintains_slotOf (target : Nat) :
    Maintains (Inside layout start fields old) (slotOf e target) := by
  apply Maintains.get_bind
  intro a
  split
  · exact .pure _
  · split
    · apply Maintains.bind
      · exact .modify fun _ holds => holds
      intro _
      exact .pure _
    · exact .refuse _

section Parts

variable (starts : word.Starts start) (fixed : old.growable = false)

include starts fixed

theorem maintains_assembleJump (touched : fields .jmp n) (t : Transition) :
    Maintains (Inside layout start fields old) (assembleJump layout word e n t) := by
  apply Maintains.ofExcept_bind
  intro jump required
  apply (maintains_slotOf t.target).bind
  intro slot
  split
  · exact maintains_write (Field.maintains_writeNat starts fixed
      (WordLayout.field?_of_require required) touched slot)
  · exact .refuse _

theorem maintains_assembleTransition (jump : n ≠ f.guards → fields .jmp n) (out : fields .out n)
    (t : Transition) :
    Maintains (Inside layout start fields old) (f.assembleTransition layout word e n t) := by
  apply (maintains_debug _).bind
  intro _
  apply Maintains.ofExcept_bind
  intro field required
  have written : Maintains (Inside layout start fields old)
      (Assembler.write (field.write word t.output)) :=
    maintains_write (Field.maintains_write starts fixed (WordLayout.field?_of_require required)
      out t.output)
  split
  · next guard =>
    exact (maintains_assembleJump starts fixed (jump guard) t).bind fun _ => written
  · exact written

theorem maintains_assembleTransitions (ts : List Transition) (first : Nat)
    (inside : first + ts.length ≤ e.transitions.length) :
    Maintains (Inside layout start (e.MayFill f.guards f.luts.length) old)
      (f.assembleTransitions layout word e first ts) := by
  induction ts generalizing first with
  | nil => exact .pure ()
  | cons t rest ih =>
    rw [List.length_cons] at inside
    have below : first < e.transitions.length := by omega
    apply Maintains.bind
    · exact maintains_assembleTransition starts fixed (fun guard => ⟨below, guard⟩) (.inl below) t
    intro _
    exact ih (first + 1) (by omega)

theorem maintains_assemblePartial (partly : e.isPartial)
    (flag : ∀ field, layout.field? .inc 0 = some field → 0 < field.width) :
    Maintains (Inside layout start (e.MayFill f.guards f.luts.length) old)
      (assemblePartial layout word e) := by
  apply Maintains.ofExcept_bind
  intro inc requiredInc
  apply Maintains.ofExcept_bind
  intro out requiredOut
  have foundInc := WordLayout.field?_of_require requiredInc
  apply Maintains.bind
  · exact maintains_write (Field.maintains_write starts fixed
      (WordLayout.field?_of_require requiredOut) (.inr ⟨partly, rfl⟩) e.partialOutput)
  intro _
  apply maintains_write
  apply Maintains.mapError
  -- the flag goes to the word and not to its field, so it takes a bit of the field to hold it
  apply Region.maintains_write fixed foundInc ⟨partly, rfl⟩
  intro r position fixed located
  obtain ⟨rfl, short⟩ := starts r fixed _ position located
  exact ⟨short, 0, flag inc foundInc, rfl⟩

theorem maintains_assembleTable (touched : fields .cfg n) (observed : Group) (t : Lut)
    (condition : Option Expr) :
    Maintains (Inside layout start fields old)
      (f.assembleTable layout word observed n t condition) := by
  apply Maintains.ofExcept_bind
  intro pins _
  apply Maintains.ofExcept_bind
  intro field required
  apply Maintains.bind
  · exact maintains_write (Lut.maintains_program starts fixed
      (WordLayout.field?_of_require required) touched t pins _)
  intro _
  apply Maintains.get_bind
  intro a
  split
  · apply Maintains.get_bind
    intro a'
    apply Maintains.ofExcept_bind
    intro contents _
    exact maintains_debug _
  · exact .pure ()

theorem maintains_assembleTables (observed : Group) (conditions : List (Option Expr))
    (luts : List Lut) (first : Nat) (inside : first + luts.length ≤ f.luts.length) :
    Maintains (Inside layout start (e.MayFill f.guards f.luts.length) old)
      (f.assembleTables layout word observed conditions first luts) := by
  induction luts generalizing first with
  | nil => exact .pure ()
  | cons t rest ih =>
    rw [List.length_cons] at inside
    have below : first < f.luts.length := by omega
    exact (maintains_assembleTable starts fixed below observed t _).bind fun _ =>
      ih (first + 1) (by omega)

end Parts

theorem maintains_checkConditionals (place : Option Position) (cs : List ConditionalOutput) :
    Maintains (Inside layout start fields old) (f.checkConditionals place cs) := by
  induction cs with
  | nil => exact .pure ()
  | cons c rest ih =>
    apply (maintains_debug _).bind
    intro _
    split
    · exact (Maintains.refuse _).bind fun _ => ih
    · exact ih

theorem maintains_assembleLogic (starts : word.Starts start) (fixed : old.growable = false) :
    Maintains (Inside layout start (e.MayFill f.guards f.luts.length) old)
      (f.assembleLogic layout word e) := by
  apply (maintains_checkConditionals _ _).bind
  intro _
  apply Maintains.ofExcept_bind
  intro observed _
  apply (maintains_debug _).bind
  intro _
  apply (maintains_assembleTables starts fixed _ _ _ 0 (Nat.le_of_eq (Nat.zero_add _))).bind
  intro _
  apply (maintains_debug _).bind
  intro _
  apply Maintains.bind
  · exact .forM fun _ _ => maintains_debug _
  intro _
  apply maintains_write
  apply Maintains.ofExcept_bind
  intro selects _
  exact MuxBank.maintains_program starts fixed rfl _ selects

theorem maintains_assemble (f : Fabric) (e : StateEntry) (starts : word.Starts start)
    (fixed : old.growable = false)
    (flag : ∀ field, layout.field? .inc 0 = some field → 0 < field.width) :
    Maintains (Inside layout start (e.MayFill f.guards f.luts.length) old)
      (f.assemble layout word e) := by
  unfold assemble
  apply (maintains_debug _).bind
  intro _
  split
  · apply (maintains_debug _).bind
    intro _
    apply (maintains_assembleTransitions starts fixed _ 0 (Nat.le_of_eq (Nat.zero_add _))).bind
    intro _
    unfold assembleRest
    split
    · next partly =>
      exact (maintains_assemblePartial starts fixed partly flag).bind fun _ =>
        maintains_assembleLogic starts fixed
    · exact maintains_assembleLogic starts fixed
  · exact .refuse _

/-- Whether an entry is assembled or refused, every bit that lies in no field is as before. Where the
fields share no bit, so is every bit of a field that does not belong to the entry. -/
theorem assemble_stays_inside {c : Chip} (valid : c.validate = .ok ())
    (flag : ∀ field, c.layout.field? .inc 0 = some field → 0 < field.width) :
    ∃ f, ofChip c = .ok f ∧ ∀ (word : Region) (start : Nat) (e : StateEntry) (a a' : Assembly)
      (result : Except (Failure Error) Unit), word.Starts start → a.register.growable = false →
      (f.assemble c.layout word e).outcome a = (result, a') →
      a'.register.mask.size = a.register.mask.size ∧
      (∀ i, (start ≤ i → ∀ field ∈ c.layout.fields, ¬ field.Covers (i - start)) →
        a'.register.mask.get i = a.register.mask.get i) ∧
      (c.layout.Disjoint → ∀ role n field, c.layout.field? role n = some field →
        ¬ e.MayFill c.staticLuts.length c.luts.length role n → ∀ i, field.Covers i →
          a'.register.mask.get (start + i) = a.register.mask.get (start + i)) := by
  obtain ⟨f, built⟩ := exists_ofChip valid
  refine ⟨f, built, fun word start e a a' result starts fixed outcome => ?_⟩
  have confined : a.register.Confined c.layout start (e.MayFill f.guards f.luts.length)
      a'.register := by
    have inside := maintains_assemble f e starts fixed flag a (.refl a.register)
    rwa [outcome] at inside
  obtain ⟨w, -, -, inputs, -, rfl⟩ := ofChip_eq_ok.1 built
  refine ⟨confined.size, fun i => confined.get_eq_of_uncovered, ?_⟩
  intro disjoint role n field found foreign i covers
  obtain ⟨k, rfl⟩ := Nat.exists_eq_add_of_le covers.1
  rw [← Nat.add_assoc]
  exact confined.get_eq disjoint found foreign (by have := covers.2; omega)

/-- An entry whose second transition leads to a state without a word. -/
def astray : StateEntry where
  id := 0
  transitions := [⟨Mask.blank 24, .inputs [1], 0⟩, ⟨Mask.blank 24, .inputs [2], 7⟩]

def filled : Assembly where
  register := ⟨false, Mask.ofFun 168 fun _ => true⟩

/-- An entry is refused when the output of its first transition is already cleared. Bit 113, which
lies in no field, and the third output are still set. -/
theorem assemble_stays_inside_astray :
    ∃ f a', ofChip Chip.fallback = .ok f ∧
      (f.assemble Chip.fallback.layout [] astray).outcome filled =
        (.error (.refused (.undefinedTarget 7 none)), a') ∧
      a'.register.mask.get 65 = false ∧ a'.register.mask.get 113 = true ∧
      a'.register.mask.get 41 = true := by
  obtain ⟨f, built, inside⟩ := assemble_stays_inside (show Chip.fallback.validate = .ok () from rfl)
    fun field found => by cases found; decide
  have evaluated : (ofChip Chip.fallback).toOption.any fun f =>
      decide (((f.assemble Chip.fallback.layout [] astray).outcome filled).1 =
          .error (.refused (.undefinedTarget 7 none)) ∧
        ((f.assemble Chip.fallback.layout [] astray).outcome filled).2.register.mask.get 65 =
          false) := by
    decide +kernel
  rw [built] at evaluated
  obtain ⟨refused, cleared⟩ := of_decide_eq_true evaluated
  have outcome : (f.assemble Chip.fallback.layout [] astray).outcome filled = (_, _) :=
    Prod.ext refused rfl
  obtain ⟨-, uncovered, foreign⟩ := inside [] 0 astray filled _ _ Region.starts_nil rfl outcome
  have set : ∀ i < 168, filled.register.mask.get i = true := by
    intro i lt
    rw [filled, Mask.get_ofFun, decide_eq_true lt]
    rfl
  refine ⟨f, _, built, outcome, cleared, ?_, ?_⟩
  · exact (uncovered 113 fun _ => by decide).trans (set 113 (by decide))
  · exact (foreign (by decide) .out 2 ⟨.out, 41, 24⟩ rfl (by decide) 41 (by decide)).trans
      (set 41 (by decide))

end Fabric

end FsmFabric
