import FsmFabric.Chip.Wiring
import FsmFabric.Proofs.Chip.Layout
import Mathlib.Data.Finset.Card

/-!
# Selections

Every multiplexer selects the input that is assigned to its pins, and the multiplexer field of a
programmed word holds the selections one after the other.
-/

namespace FsmFabric

open Edit

namespace Wiring

theorem mem_pinsOf {w : Wiring} {mux pin : Nat} :
    pin ∈ w.pinsOf mux ↔ w.drivers[pin]? = some mux := by
  unfold pinsOf
  rw [List.mem_map]
  constructor
  · rintro ⟨⟨mux', pin'⟩, member, rfl⟩
    obtain ⟨member, same⟩ := List.mem_filter.1 member
    rw [← eq_of_beq same]
    exact List.mem_zipIdx_iff_getElem?.1 member
  · intro driven
    exact ⟨(mux, pin), List.mem_filter.2 ⟨List.mem_zipIdx_iff_getElem?.2 driven, beq_self_eq_true mux⟩,
      rfl⟩

def drives (w : Wiring) (mux : Nat) : Finset Nat :=
  (Finset.range w.pinCount).filter fun pin => w.drivers[pin]? = some mux

theorem mem_drives {w : Wiring} {mux pin : Nat} :
    pin ∈ w.drives mux ↔ w.drivers[pin]? = some mux := by
  rw [drives, Finset.mem_filter, Finset.mem_range, and_iff_right_iff_imp]
  exact fun driven => (List.getElem?_eq_some_iff.1 driven).1

theorem pairwise_pinsOf (w : Wiring) (mux : Nat) : (w.pinsOf mux).Pairwise (· < ·) := by
  have ascending : (w.drivers.zipIdx.map (·.2)).Pairwise (· < ·) := by
    rw [List.zipIdx_map_snd]
    exact List.pairwise_lt_range'
  exact ascending.sublist (List.filter_sublist.map _)

private theorem find?_tally_foldl (l : List Nat) (counts : IdMap Nat) (n : Nat) :
    ((l.foldl (fun counts n => counts.insert n ((counts.find? n).getD 0 + 1)) counts).find?
      n).getD 0 = (counts.find? n).getD 0 + l.count n := by
  induction l generalizing counts with
  | nil => rfl
  | cons a rest ih =>
    rw [List.foldl_cons, ih, IdMap.find?_insert, List.count_cons]
    by_cases same : n = a
    · subst same
      rw [if_pos rfl, beq_self_eq_true, if_pos rfl, Option.getD_some]
      omega
    · simp [same, Ne.symm same]

theorem find?_tally (l : List Nat) (n : Nat) : ((tally l).find? n).getD 0 = l.count n := by
  rw [tally, find?_tally_foldl]
  exact Nat.zero_add _

theorem count_drivers (w : Wiring) (mux : Nat) : w.drivers.count mux = (w.drives mux).card := by
  have pins : w.drives mux = (w.pinsOf mux).toFinset := by
    ext pin
    rw [mem_drives, List.mem_toFinset, mem_pinsOf]
  rw [pins, List.toFinset_card_of_nodup ((w.pairwise_pinsOf mux).imp Nat.ne_of_lt), pinsOf,
    List.length_map, ← List.countP_eq_length_filter, List.count]
  conv_lhs => rw [← List.zipIdx_map_fst 0 w.drivers]
  rw [List.countP_map]
  rfl

/-- Adds the input assigned to a pin to the selections chosen so far. -/
private def choose (assigned : List (Option Nat)) (chosen : IdMap Nat) (driven : Nat × Nat) :
    Except Error (IdMap Nat) :=
  match (assigned[driven.2]?).join with
  | none => .ok chosen
  | some input =>
    match chosen.find? driven.1 with
    | some before =>
      if before = input then .ok chosen
      else .error (.internal (.sharedMux driven.1 before input))
    | none => .ok (chosen.insert driven.1 input)

private theorem choose_spec {assigned : List (Option Nat)} {chosen chosen' : IdMap Nat}
    {driven : Nat × Nat} (done : choose assigned chosen driven = .ok chosen') :
    (∀ mux input, chosen.find? mux = some input → chosen'.find? mux = some input) ∧
      ∀ input, (assigned[driven.2]?).join = some input → chosen'.find? driven.1 = some input := by
  unfold choose at done
  split at done
  · next none =>
    cases done
    exact ⟨fun _ _ kept => kept, fun input some => by rw [none] at some; cases some⟩
  · next input here =>
    rw [here]
    split at done
    · next before there =>
      split at done
      · next same =>
        cases done
        subst same
        exact ⟨fun _ _ kept => kept, fun _ same => same ▸ there⟩
      · cases done
    · next new =>
      cases done
      refine ⟨fun mux input kept => ?_, fun _ same => ?_⟩
      · rw [IdMap.find?_insert, if_neg, kept]
        rintro rfl
        rw [new] at kept
        cases kept
      · rw [IdMap.find?_insert, if_pos rfl, same]

private theorem foldlM_choose {assigned : List (Option Nat)} {pairs : List (Nat × Nat)}
    {chosen chosen' : IdMap Nat} (done : pairs.foldlM (choose assigned) chosen = .ok chosen') :
    (∀ mux input, chosen.find? mux = some input → chosen'.find? mux = some input) ∧
      ∀ driven ∈ pairs, ∀ input, (assigned[driven.2]?).join = some input →
        chosen'.find? driven.1 = some input := by
  induction pairs generalizing chosen with
  | nil =>
    cases done
    exact ⟨fun _ _ kept => kept, fun _ member => nomatch member⟩
  | cons driven rest ih =>
    rw [List.foldlM_cons] at done
    obtain ⟨middle, first, done⟩ := bind_eq_ok.1 done
    obtain ⟨kept, here⟩ := choose_spec first
    obtain ⟨kept', there⟩ := ih done
    refine ⟨fun mux input found => kept' mux input (kept mux input found), ?_⟩
    rintro driven' member input found
    rcases List.mem_cons.1 member with rfl | member
    · exact kept' _ _ (here input found)
    · exact there driven' member input found

/-- Every multiplexer selects what is assigned to its pins. -/
theorem get_selections {w : Wiring} {assigned : List (Option Nat)} {selects : List Nat}
    (found : w.selections assigned = .ok selects) :
    selects.length = w.bank.count ∧ ∀ (pin mux input : Nat), w.drivers[pin]? = some mux →
      mux < w.bank.count → assigned[pin]? = some (some input) → selects[mux]? = some input := by
  obtain ⟨chosen, folded, done⟩ := bind_eq_ok.1 found
  obtain rfl := pure_eq_ok.1 done
  refine ⟨by simp, fun pin mux input driver inBank given => ?_⟩
  have member : (mux, pin) ∈ w.drivers.zipIdx := List.mem_zipIdx_iff_getElem?.2 driver
  have folded : w.drivers.zipIdx.foldlM (choose assigned) IdMap.empty = .ok chosen := folded
  have selected := (foldlM_choose folded).2 (mux, pin) member input (by simp [given])
  simp [inBank, selected]

def Agrees (w : Wiring) (assigned : List (Option Nat)) : Prop :=
  ∀ (p q mux i j : Nat), w.drivers[p]? = some mux → w.drivers[q]? = some mux →
    assigned[p]? = some (some i) → assigned[q]? = some (some j) → i = j

def Conflicts (w : Wiring) (assigned : List (Option Nat)) (mux i j : Nat) : Prop :=
  i ≠ j ∧ ∃ p q : Nat, w.drivers[p]? = some mux ∧ w.drivers[q]? = some mux ∧
    assigned[p]? = some (some i) ∧ assigned[q]? = some (some j)

theorem Conflicts.not_agrees {w : Wiring} {assigned : List (Option Nat)} {mux i j : Nat}
    (conflicts : w.Conflicts assigned mux i j) : ¬ w.Agrees assigned := by
  obtain ⟨differ, p, q, driverP, driverQ, here, there⟩ := conflicts
  exact fun agrees => differ (agrees p q mux i j driverP driverQ here there)

private def Chosen (w : Wiring) (assigned : List (Option Nat)) (chosen : IdMap Nat) : Prop :=
  ∀ (mux input : Nat), chosen.find? mux = some input →
    ∃ pin : Nat, w.drivers[pin]? = some mux ∧ assigned[pin]? = some (some input)

private theorem choose_cases {w : Wiring} {assigned : List (Option Nat)} {chosen : IdMap Nat}
    (known : w.Chosen assigned chosen) {driven : Nat × Nat}
    (driver : w.drivers[driven.2]? = some driven.1) :
    (∃ chosen', choose assigned chosen driven = .ok chosen' ∧ w.Chosen assigned chosen') ∨
      ∃ i j, w.Conflicts assigned driven.1 i j ∧
        choose assigned chosen driven = .error (.internal (.sharedMux driven.1 i j)) := by
  unfold choose
  split
  · exact .inl ⟨chosen, rfl, known⟩
  · next input here =>
    have given : assigned[driven.2]? = some (some input) := Option.join_eq_some_iff.1 here
    split
    · next before there =>
      obtain ⟨pin, driver', given'⟩ := known driven.1 before there
      by_cases same : before = input
      · exact .inl ⟨chosen, if_pos same, known⟩
      · exact .inr ⟨before, input, ⟨same, pin, driven.2, driver', driver, given', given⟩, if_neg same⟩
    · refine .inl ⟨_, rfl, fun mux i found => ?_⟩
      rw [IdMap.find?_insert] at found
      split at found
      · next same =>
        cases found
        exact ⟨driven.2, same ▸ driver, given⟩
      · exact known mux i found

private theorem foldlM_choose_cases {w : Wiring} {assigned : List (Option Nat)}
    {pairs : List (Nat × Nat)} (drivers : ∀ driven ∈ pairs, w.drivers[driven.2]? = some driven.1)
    {chosen : IdMap Nat} (known : w.Chosen assigned chosen) :
    (∃ chosen', pairs.foldlM (choose assigned) chosen = .ok chosen' ∧ w.Chosen assigned chosen') ∨
      ∃ mux i j, w.Conflicts assigned mux i j ∧
        pairs.foldlM (choose assigned) chosen = .error (.internal (.sharedMux mux i j)) := by
  induction pairs generalizing chosen with
  | nil => exact .inl ⟨chosen, rfl, known⟩
  | cons driven rest ih =>
    obtain ⟨here, later⟩ := List.forall_mem_cons.1 drivers
    rw [List.foldlM_cons]
    rcases choose_cases known here with ⟨middle, first, known'⟩ | ⟨i, j, conflicts, first⟩
    · rw [first]
      exact ih later known'
    · exact .inr ⟨driven.1, i, j, conflicts, by rw [first]; rfl⟩

def Idle (w : Wiring) (assigned : List (Option Nat)) (mux : Nat) : Prop :=
  ∀ (pin input : Nat), w.drivers[pin]? = some mux → assigned[pin]? ≠ some (some input)

/-- Every multiplexer selects what is assigned to its pins, or input 0, unless its pins disagree. -/
theorem selections_cases (w : Wiring) (assigned : List (Option Nat)) :
    (∃ selects, w.selections assigned = .ok selects ∧
      ∀ mux < w.bank.count, w.Idle assigned mux → selects[mux]? = some 0) ∨
      ∃ mux i j, w.Conflicts assigned mux i j ∧
        w.selections assigned = .error (.internal (.sharedMux mux i j)) := by
  have drivers : ∀ driven ∈ w.drivers.zipIdx, w.drivers[driven.2]? = some driven.1 :=
    fun driven member => List.mem_zipIdx_iff_getElem?.1 member
  have start : w.Chosen assigned IdMap.empty := fun mux input found => nomatch found
  rcases foldlM_choose_cases drivers start with
    ⟨chosen, folded, known⟩ | ⟨mux, i, j, conflicts, folded⟩
  · refine .inl ⟨_, bind_eq_ok.2 ⟨chosen, folded, rfl⟩, fun mux inBank idle => ?_⟩
    cases found : chosen.find? mux with
    | none => simp [inBank, found]
    | some input =>
      obtain ⟨pin, driver, given⟩ := known mux input found
      exact absurd given (idle pin input driver)
  · exact .inr ⟨mux, i, j, conflicts, bind_eq_error.2 (.inl folded)⟩

/-- Where the pins of each multiplexer agree, no input is assigned in another's place. -/
theorem exists_selections {w : Wiring} {assigned : List (Option Nat)}
    (agrees : w.Agrees assigned) : ∃ selects, w.selections assigned = .ok selects := by
  rcases w.selections_cases assigned with ⟨selects, found, -⟩ | ⟨mux, i, j, conflicts, -⟩
  · exact ⟨selects, found⟩
  · exact absurd agrees conflicts.not_agrees

end Wiring

namespace MuxBank

/-- Programming a bank never ends in a conflict between the pins of a multiplexer. -/
theorem avoids_program (bank : MuxBank) (layout : WordLayout) (word : Region)
    (selects : List Nat) :
    Avoids (bank.program layout word selects)
      (∃ mux before now, · = .internal (.sharedMux mux before now)) := by
  unfold program
  refine .bind (.ofExcept fun e missing => ?_) fun field => .bind (.ofFault _) fun needed => ?_
  · rintro ⟨mux, before, now, rfl⟩
    unfold WordLayout.require at missing
    split at missing <;> cases missing
  · split
    · exact .refuse fun ⟨mux, before, now, same⟩ => by cases same
    · refine .forM (fun selected => .bind (.ofFault _) fun offset => ?_) _
      exact .mapError (fun e ⟨mux, before, now, same⟩ => by cases same) _

def select (bank : MuxBank) (field : Field) (word : Region) (selected : Nat × Nat) :
    WordEdit Unit := do
  let offset ← Edit.ofFault (do Checked.add field.offset (← Checked.mul selected.2 bank.selectBits))
  WordEdit.ofBits (Region.writeNat (.window offset bank.selectBits :: word) selected.1)

theorem offset_eq_ok {bank : MuxBank} {base mux offset : Nat} :
    (Checked.mul mux bank.selectBits >>= Checked.add base) = .ok offset ↔
      base + mux * bank.selectBits < Checked.limit ∧ base + mux * bank.selectBits = offset := by
  rw [bind_eq_ok]
  constructor
  · intro ⟨product, multiplied, added⟩
    obtain ⟨-, rfl⟩ := Checked.within_eq_ok.1 multiplied
    exact Checked.within_eq_ok.1 added
  · intro ⟨small, same⟩
    exact ⟨_, Checked.within_eq_ok.2 ⟨by omega, rfl⟩, Checked.within_eq_ok.2 ⟨small, same⟩⟩

theorem lt_count_of_mem {bank : MuxBank} {selects : List Nat} {selected : Nat × Nat}
    (member : selected ∈ (selects.take bank.count).zipIdx) : selected.2 < bank.count := by
  have listed := List.snd_lt_of_mem_zipIdx member
  rw [List.length_take] at listed
  omega

/-- A bank is programmed selection by selection. What it refuses, it refuses before. -/
theorem upholds_program_of_select {bank : MuxBank} {layout : WordLayout} {word : Region}
    {selects : List Nat} {inv : Register → Prop} {bad : Failure Error → Prop}
    (product : Spares bad (liftM (Checked.mul bank.selectBits bank.count) : Result Nat))
    (missing : layout.field? .mux 0 = none → ¬ bad (.refused (.mismatch (.missingField .mux 0))))
    (narrow : ∀ field, layout.field? .mux 0 = some field →
      field.width < bank.selectBits * bank.count → ∀ e, ¬ bad (.refused (.mismatch e)))
    (each : ∀ field, layout.field? .mux 0 = some field →
      bank.selectBits * bank.count ≤ field.width → ∀ value ∈ selects, ∀ mux < bank.count,
        Upholds inv bad (bank.select field word (value, mux))) :
    Upholds inv bad (bank.program layout word selects) := by
  apply Upholds.ofExcept_bind
  · intro x failed
    unfold WordLayout.require at failed
    split at failed
    · cases failed
    · next none =>
      cases failed
      exact missing none
  intro field required
  have found := WordLayout.field?_of_require required
  apply Upholds.ofExcept_bind product
  intro needed counted
  obtain ⟨-, rfl⟩ := Checked.within_eq_ok.1 (liftM_eq_ok.1 counted)
  split
  · next short => exact .refuse (narrow field found short _)
  · next wide =>
    apply Upholds.forM
    intro selected member
    have value := List.mem_of_mem_take (List.fst_mem_of_mem_zipIdx member)
    exact each field found (Nat.le_of_not_lt wide) selected.1 value selected.2
      (lt_count_of_mem member)

private theorem patched_of_select {bank : MuxBank} {field : Field} {word : Region} {start : Nat}
    {value mux : Nat} {r r' : Register} {a : Unit} (starts : word.Starts start)
    (fixed : r.growable = false) (run : Runs (bank.select field word (value, mux)) r a r') :
    Region.digitCount value ≤ bank.selectBits ∧
      r.Patched (start + field.offset + mux * bank.selectBits) (Region.digitCount value)
        value.testBit r' := by
  obtain ⟨offset, located, run⟩ := runs_ofFault_bind.1 run
  obtain ⟨-, rfl⟩ := offset_eq_ok.1 located
  rw [Nat.add_assoc]
  exact Region.patched_of_writeNat starts fixed (runs_mapError.1 run)

/-- Selections written one after the other, from multiplexer `first` on, where there was nothing
before. -/
private theorem get_of_selects {bank : MuxBank} {field : Field} {word : Region} {start : Nat}
    (starts : word.Starts start) {selects : List Nat} {first : Nat} {r r' : Register} {a : Unit}
    (fixed : r.growable = false)
    (run : Runs ((selects.zipIdx first).forM (bank.select field word)) r a r')
    (blank : ∀ i, first * bank.selectBits ≤ i → i < (first + selects.length) * bank.selectBits →
      r.mask.get (start + field.offset + i) = false) :
    r'.growable = r.growable ∧ r'.mask.size = r.mask.size ∧
      (∀ i, i < start + field.offset + first * bank.selectBits ∨
        start + field.offset + (first + selects.length) * bank.selectBits ≤ i →
        r'.mask.get i = r.mask.get i) ∧
      ∀ (j value : Nat), selects[j]? = some value → value < 2 ^ bank.selectBits ∧
        ∀ i, i < bank.selectBits →
          r'.mask.get (start + field.offset + (first + j) * bank.selectBits + i) =
            value.testBit i := by
  induction selects generalizing first r with
  | nil =>
    obtain ⟨-, rfl⟩ := runs_pure.1 run
    exact ⟨rfl, rfl, fun _ _ => rfl, fun j value found => by simp at found⟩
  | cons value rest ih =>
    rw [List.zipIdx_cons] at run
    obtain ⟨r₁, here, run⟩ := runs_forM_cons.1 run
    obtain ⟨short, patched⟩ := patched_of_select starts fixed here
    have next : (first + 1) * bank.selectBits = first * bank.selectBits + bank.selectBits :=
      Nat.succ_mul _ _
    have length : first + (value :: rest).length = first + 1 + rest.length := by
      rw [List.length_cons]
      omega
    have grows : (first + 1) * bank.selectBits ≤ (first + 1 + rest.length) * bank.selectBits :=
      Nat.mul_le_mul_right _ (by omega)
    rw [length] at blank ⊢
    obtain ⟨growable, size, outside, inside⟩ := ih (patched.growable.trans fixed) run
      fun i low high => by rw [patched.outside _ (by omega), blank i (by omega) high]
    refine ⟨growable.trans patched.growable, size.trans patched.size, fun i apart => ?_, ?_⟩
    · rw [outside i (by omega), patched.outside i (by omega)]
    · intro j value' found
      cases j with
      | zero =>
        obtain rfl : value = value' := by simpa using found
        refine ⟨Region.lt_two_pow_of_digitCount_le short, fun i lt => ?_⟩
        rw [Nat.add_zero, outside _ (by omega)]
        by_cases digit : i < Region.digitCount value
        · exact patched.inside i digit
        · rw [patched.outside _ (by omega), Nat.add_assoc, blank _ (by omega) (by omega),
            Region.testBit_of_digitCount_le (Nat.le_of_not_lt digit)]
      | succ j =>
        rw [show first + (j + 1) = first + 1 + j by omega]
        exact inside j value' (by simpa using found)

/-- A programmed bank holds its selections, if its field held nothing before. -/
theorem get_of_program {bank : MuxBank} {layout : WordLayout} {word : Region} {start : Nat}
    {selects : List Nat} {r r' : Register} {a : Unit} (starts : word.Starts start)
    (fixed : r.growable = false) (run : Runs (bank.program layout word selects) r a r')
    (blank : layout.Blank start r.mask .mux 0)
    (length : selects.length = bank.count) :
    ∃ f, layout.field? .mux 0 = some f ∧ bank.selectBits * bank.count ≤ f.width ∧
      r.Confined layout start (fun role n => role = .mux ∧ n = 0) r' ∧
      (∀ i, i < start + f.offset ∨ start + f.offset + bank.count * bank.selectBits ≤ i →
        r'.mask.get i = r.mask.get i) ∧
      ∀ (mux select : Nat), selects[mux]? = some select →
        select < 2 ^ bank.selectBits ∧ ∀ i, i < bank.selectBits →
          r'.mask.get (start + f.offset + mux * bank.selectBits + i) = select.testBit i := by
  obtain ⟨field, required, run⟩ := runs_ofExcept_bind.1 run
  have found := WordLayout.field?_of_require required
  obtain ⟨needed, product, run⟩ := runs_ofFault_bind.1 run
  obtain ⟨-, rfl⟩ := Checked.within_eq_ok.1 product
  split at run
  · exact absurd run runs_refuse
  · next fits =>
    rw [← length, List.take_length] at run
    have room : selects.length * bank.selectBits ≤ field.width := by
      rw [length, Nat.mul_comm]
      exact Nat.le_of_not_lt fits
    have loop : Runs ((selects.zipIdx 0).forM (bank.select field word)) r a r' := run
    obtain ⟨growable, size, outside, inside⟩ := get_of_selects starts fixed loop
      fun i _ high => by
        rw [Nat.zero_add] at high
        exact blank field found i (by omega)
    simp only [Nat.zero_mul, Nat.zero_add, Nat.add_zero] at outside inside
    refine ⟨field, found, Nat.le_of_not_lt fits, ⟨growable, size, fun i differ => ?_⟩,
      length ▸ outside, inside⟩
    refine ⟨.mux, 0, field, ⟨rfl, rfl⟩, found, ?_, ?_⟩
    · by_contra below
      exact differ (outside i (by omega))
    · by_contra apart
      refine differ (outside i ?_)
      unfold Field.Covers at apart
      omega

end MuxBank

end FsmFabric
