import FsmFabric.Fabric.Step
import FsmFabric.Proofs.Expr.Simplify
import FsmFabric.Proofs.Fabric.Assembly
import FsmFabric.Proofs.Fabric.Valid

/-!
# What an assembled word does

The fabric reads a word back field by field. In a word that was assembled from an entry, each guard
table fires exactly if the guard of its transition holds, and then decides as the transition says.
-/

namespace FsmFabric

namespace Fabric

variable {f : Fabric} {image : Image} {word : Nat} {e : StateEntry}

section Tables

variable (hosts : f.Hosts image) (lt : word < image.layout.words)

include hosts lt

/-- Every pin of a word sees an input: the one it was given, if any. -/
theorem exists_pinValue {observed : List (Option Nat)}
    (selects : f.Selects image.layout (image.layout.startOf word) image.bits observed) {pin : Nat}
    (inside : pin < f.wiring.pinCount) :
    ∃ input, (∀ x, f.pinValue image x word pin = some (x input)) ∧
      ∀ given, observed[pin]? = some (some given) → input = given := by
  obtain ⟨field, found, room, selected⟩ := selects
  have driver : f.wiring.drivers[pin]? = some f.wiring.drivers[pin] :=
    List.getElem?_eq_getElem inside
  have inBank := hosts.regular.driven _ (List.mem_of_getElem? driver)
  have short := hosts.regular.selectBits
  rw [← hosts.bank] at inBank short room
  have selection := Image.selection?_eq hosts.sound lt found inBank
    (short.trans (by decide)) room
  refine ⟨image.bits.valueAt (image.layout.startOf word + field.offset +
    f.wiring.drivers[pin] * image.muxes.selectBits) image.muxes.selectBits,
    fun x => ?_, fun given assigned => ?_⟩
  · rw [pinValue, driver]
    simp only [bind, Option.bind, selection]
    rfl
  · obtain ⟨small, digits⟩ := selected pin _ given driver assigned
    rw [← hosts.bank] at small digits
    exact Mask.valueAt_eq small digits

/-- The row of a table that its pins select. -/
theorem exists_selectedRow {observed : List (Option Nat)}
    (selects : f.Selects image.layout (image.layout.startOf word) image.bits observed) {t : Lut}
    (table : t ∈ f.luts) (x : Nat → Bool) :
    ∃ row, f.selectedRow image x word t = some row ∧ row < 2 ^ t.pins ∧
      ∀ p given, p < t.pins → observed[t.firstPin + p]? = some (some given) →
        row.testBit p = x given := by
  have room := hosts.regular.inside t table
  have seen : ∀ p, ∃ input, p < t.pins →
      (∀ x, f.pinValue image x word (t.firstPin + p) = some (x input)) ∧
        ∀ given, observed[t.firstPin + p]? = some (some given) → input = given := by
    intro p
    by_cases pin : p < t.pins
    · obtain ⟨input, sees⟩ := exists_pinValue hosts lt selects
        (show t.firstPin + p < f.wiring.pinCount by omega)
      exact ⟨input, fun _ => sees⟩
    · exact ⟨0, fun h => absurd h pin⟩
  choose input sees using seen
  have values : (List.range t.pins).mapM (fun p => f.pinValue image x word (t.firstPin + p)) =
      some ((List.range t.pins).map fun p => x (input p)) :=
    mapM_eq_pure_map fun p member => (sees p (List.mem_range.1 member)).1 x
  refine ⟨Mask.valueOf ((List.range t.pins).map fun p => x (input p)), ?_, ?_, ?_⟩
  · rw [selectedRow, values]
    rfl
  · simpa using Mask.valueOf_lt ((List.range t.pins).map fun p => x (input p))
  · intro p given pin assigned
    rw [Mask.testBit_valueOf, ← (sees p pin).2 given assigned]
    simp [pin]

/-- A table fires exactly if its condition holds. -/
theorem fires_of_wired (wired : f.Wired image.layout (image.layout.startOf word) e image.bits)
    (x : Nat → Bool) {n : Nat} (inside : n < f.luts.length) :
    f.fires image x word n = some ((f.conditionOf (f.conditions e) n).holds x) := by
  obtain ⟨observed, allocated, programs, selects⟩ := wired
  obtain ⟨length, -, selectable, served⟩ := served_of_allocate hosts.regular.tiled allocated
  have table : f.luts[n]? = some f.luts[n] := List.getElem?_eq_getElem inside
  generalize f.luts[n] = t at table
  have room := hosts.regular.inside t (List.mem_of_getElem? table)
  obtain ⟨row, selected, small, digits⟩ :=
    exists_selectedRow hosts lt selects (List.mem_of_getElem? table) x
  obtain ⟨field, found, fits, rows⟩ := programs n t table
  have reads : ∀ i ∈ (f.conditionOf (f.conditions e) n).reads, ∃ p, p < t.pins ∧
      observed[t.firstPin + p]? = some (some i) := by
    intro i member
    unfold conditionOf at member
    cases condition : ((f.conditions e)[n]?).join with
    | none =>
      rw [condition] at member
      cases member
    | some g =>
      rw [condition] at member
      obtain ⟨u, pin, table', ⟨low, high⟩, here⟩ :=
        served n t g table (Option.join_eq_some_iff.1 condition) i member
      obtain rfl : t = u := Option.some.inj (table.symm.trans table')
      exact ⟨pin - t.firstPin, by omega, by rwa [Nat.add_sub_cancel' low]⟩
  -- a pin that was given no input observes a number beyond all inputs; it sees a digit of the row
  let y : Nat → Bool := fun i =>
    if i < f.inputs then x i else row.testBit (i - f.inputs - t.firstPin)
  have given {pin i : Nat} (here : observed[pin]? = some (some i)) : y i = x i :=
    if_pos (selectable pin i here)
  have scratch (p : Nat) : y (f.inputs + (t.firstPin + p)) = row.testBit p := by
    have past : ¬ f.inputs + (t.firstPin + p) < f.inputs := by omega
    have digit : f.inputs + (t.firstPin + p) - f.inputs - t.firstPin = p := by omega
    simp only [y, if_neg past, digit]
  have agrees : ∀ i ∈ (f.conditionOf (f.conditions e) n).reads, y i = x i := fun i member => by
    obtain ⟨p, -, here⟩ := reads i member
    exact given here
  have observation {pin : Nat} {input : Option Nat} (here : observed[pin]? = some input) :
      (f.observations observed)[pin]? = some (input.getD (f.inputs + pin)) := by
    simp [observations, here]
  have value := rows row y small (fun p pin => ?_) fun i member => ?_
  · have table : fieldOf image word .cfg n =
        some (image.bits.extract (image.layout.startOf word + field.offset) field.width) :=
      Image.fieldOf_eq hosts.sound lt found
    simp only [fires, ‹f.luts[n]? = some t›, table, selected, bind, Option.bind, pure]
    rw [Mask.get_extract, value, decide_eq_true (by omega), Bool.true_and, Expr.holds_congr agrees]
  · have known : t.firstPin + p < observed.length := by omega
    have here : observed[t.firstPin + p]? = some observed[t.firstPin + p] :=
      List.getElem?_eq_getElem known
    refine ⟨_, observation here, ?_⟩
    generalize observed[t.firstPin + p] = input at here
    cases input with
    | none => exact (scratch p).symm
    | some i => exact (digits p i pin here).trans (given here).symm
  · obtain ⟨p, pin, here⟩ := reads i member
    exact ⟨p, pin, observation here⟩

end Tables

/-- Whether table `n` fires in a word of an entry. One without a transition fires always. -/
def guardAt (e : StateEntry) (x : Nat → Bool) (n : Nat) : Bool :=
  (e.transitions[n]?).elim true fun t => t.guard.holds x

/-- A word of the image does what an entry says. -/
structure Carries (f : Fabric) (image : Image) (slots : IdMap Nat) (word : Nat) (e : StateEntry) :
    Prop where
  fits : e.fits f.guards = true
  fires : ∀ x n, n < f.guards → f.fires image x word n = some (guardAt e x n)
  move : ∀ (n : Nat) (t : Transition), e.transitions[n]? = some t → n < f.guards →
    ∃ field slot, image.layout.field? .out n = some field ∧ slots.find? t.target = some slot ∧
      moveOf image word n = some ⟨slot, t.output.extract 0 field.width⟩
  rest : ∀ t : Transition, e.transitions[f.guards]? = some t →
    ∃ field, image.layout.field? .out f.guards = some field ∧
      fieldOf image word .out f.guards = some (t.output.extract 0 field.width)
  inc : ∀ field, image.layout.field? .inc 0 = some field →
    ∃ inc, fieldOf image word .inc 0 = some inc ∧ inc.get 0 = e.isPartial
  continued : e.isPartial = true → ∃ field, image.layout.field? .inc 0 = some field

theorem conditionOf_conditions {n : Nat} (guard : n < f.guards) (inside : n < f.luts.length)
    (x : Nat → Bool) : (f.conditionOf (f.conditions e) n).holds x = guardAt e x n := by
  have here : (f.conditions e)[n]? = some ((e.transitions[n]?).map Transition.guard) := by
    simp [conditions, inside, guard]
  rw [conditionOf, here, guardAt]
  cases e.transitions[n]? with
  | none => simp [guard, Expr.holds_literal]
  | some t => rfl

theorem output_of_reads (sound : image.layout.Sound) (lt : word < image.layout.words) {n : Nat}
    {field : Field} {output : Mask}
    (reads : image.layout.Reads (image.layout.startOf word) image.bits .out n field output.get) :
    fieldOf image word .out n = some (output.extract 0 field.width) := by
  rw [Image.fieldOf_eq sound lt reads.1]
  refine congrArg some (Mask.ofFun_congr fun i inside => ?_)
  rw [reads.2 i inside, Nat.zero_add]

/-- An assembled word does what its entry says. -/
theorem carries_of_assembled (hosts : f.Hosts image) (lt : word < image.layout.words)
    {slots : IdMap Nat}
    (assembled : f.Assembled image.layout (image.layout.startOf word) slots e image.bits) :
    f.Carries image slots word e where
  fits := assembled.fits
  fires x n guard := by
    have inside := guard.trans_le hosts.regular.guards_le
    rw [fires_of_wired hosts lt assembled.wired x inside,
      conditionOf_conditions guard inside]
  move n t found guard := by
    obtain ⟨⟨out, output⟩, jump⟩ := assembled.writes n t found
    obtain ⟨jmp, slot, target, small, digits⟩ := jump guard.ne
    refine ⟨out, slot, output.1, target, ?_⟩
    have value : (image.bits.extract (image.layout.startOf word + jmp.offset) jmp.width).valueAt 0
        jmp.width = slot :=
      Mask.valueAt_eq small fun i inside => by simp [inside, digits.2 i inside]
    have size : (image.bits.extract (image.layout.startOf word + jmp.offset) jmp.width).size =
        jmp.width := Mask.size_ofFun ..
    simp only [moveOf, output_of_reads hosts.sound lt output, Image.fieldOf_eq hosts.sound lt digits.1, size,
      value, bind, Option.bind, pure]
  rest t found := by
    obtain ⟨⟨out, output⟩, -⟩ := assembled.writes f.guards t found
    exact ⟨out, output.1, output_of_reads hosts.sound lt output⟩
  inc field found := by
    refine ⟨_, Image.fieldOf_eq hosts.sound lt found, ?_⟩
    rw [Mask.get_extract, decide_eq_true (hosts.inc field found), Bool.true_and]
    exact assembled.inc field found
  continued := assembled.continued

end Fabric

end FsmFabric
