import FsmFabric.Proofs.Bits.Algebra

/-!
# Stacks of views

Reading and writing through a stack of views is reading and writing at the composed position. If no
view maps two of its bits to one position, a write changes one bit and no other one, seen through
the stack or below it. A number is written bit by bit, and is read back.
-/

namespace FsmFabric

open Edit

namespace View

def Injective : View → Prop
  | window .. => True
  | mapped group => ∀ i j, i < group.size → j < group.size → group.entry i = group.entry j → i = j

theorem Injective.target {v : View} (injective : v.Injective) (inRange : v.InRange) {i j : Nat}
    (insideI : i < v.width) (insideJ : j < v.width) (same : v.target i = v.target j) : i = j := by
  cases v with
  | window offset size => exact Nat.add_left_cancel same
  | mapped group =>
    refine injective i j insideI insideJ ?_
    rw [Group.InRange.entry inRange insideI, Group.InRange.entry inRange insideJ]
    exact congrArg Except.ok same

end View

namespace Region

variable {region : Region} {r r' : Register} {i : Nat} {value : Bool}

theorem position?_injective (inRange : ∀ v ∈ region, v.InRange)
    (injective : ∀ v ∈ region, v.Injective) {i j p : Nat} (atI : region.position? i = some p)
    (atJ : region.position? j = some p) : i = j := by
  induction region generalizing i j with
  | nil =>
    cases atI
    cases atJ
    rfl
  | cons view rest ih =>
    obtain ⟨small, later⟩ := List.forall_mem_cons.1 inRange
    obtain ⟨here, others⟩ := List.forall_mem_cons.1 injective
    rw [position?] at atI atJ
    split at atI
    · next insideI =>
      split at atJ
      · next insideJ => exact here.target small insideI insideJ (ih later others atI atJ)
      · cases atJ
    · cases atI

/-! ## One write -/

theorem runs_write_iff (inRange : ∀ v ∈ region, v.InRange) (room : region.Roomy i) :
    Runs (region.write i value) r () r' ↔
      ∃ p, region.position? i = some p ∧ r.Admits p ∧
        { r with mask := r.mask.put p value } = r' := by
  unfold Runs
  rcases outcome_write_cases inRange room value with
    ⟨p, found, admits, outcome⟩ | ⟨refused, _, _, outcome⟩
  · rw [outcome]
    constructor
    · intro same
      cases same
      exact ⟨p, found, admits, rfl⟩
    · rintro ⟨q, same, -, rfl⟩
      obtain rfl := Option.some.inj (found.symm.trans same)
      rfl
  · rw [outcome]
    constructor
    · intro same
      cases same
    · rintro ⟨p, found, admits, -⟩
      exact absurd admits (refused p found)

theorem exists_fails_write_iff (inRange : ∀ v ∈ region, v.InRange) (room : region.Roomy i) :
    (∃ x, Fails (region.write i value) r x) ↔
      region.position? i = none ∨
        ∃ p, region.position? i = some p ∧ r.growable = false ∧ r.mask.size ≤ p := by
  unfold Fails
  rcases outcome_write_cases inRange room value with
    ⟨p, found, admits, outcome⟩ | ⟨refused, _, _, outcome⟩
  · rw [outcome, found]
    constructor
    · rintro ⟨_, failed⟩
      cases failed
    · rintro (none | ⟨q, same, short⟩)
      · cases none
      · cases same
        exact absurd admits (Register.not_admits_iff.2 short)
  · rw [outcome]
    refine ⟨fun _ => ?_, fun _ => ⟨_, rfl⟩⟩
    cases found : region.position? i with
    | none => exact .inl rfl
    | some p => exact .inr ⟨p, rfl, Register.not_admits_iff.1 (refused p found)⟩

/-- Below a stack one bit is written, and through it one bit is seen to change. -/
theorem read_put (inRange : ∀ v ∈ region, v.InRange) (injective : ∀ v ∈ region, v.Injective)
    {p : Nat} (found : region.position? i = some p) (j : Nat) :
    Register.read { r with mask := r.mask.put p value } region j =
      if j = i then .ok value else r.read region j := by
  rw [Register.read_eq _ inRange, Register.read_eq _ inRange]
  split
  · next same =>
    rw [same, found]
    exact congrArg Except.ok ((r.mask.get_put p value p).trans (if_pos rfl))
  · next other =>
    cases elsewhere : region.position? j with
    | none => rfl
    | some q =>
      have apart : q ≠ p := by
        rintro rfl
        exact other (position?_injective inRange injective elsewhere found)
      exact congrArg Except.ok ((r.mask.get_put p value q).trans (if_neg apart))

/-! ## Many writes -/

/-- The first `count` bits of a region have been written, and nothing else. -/
structure Wrote (region : Region) (old : Register) (count : Nat) (value : Nat → Bool)
    (new : Register) : Prop where
  inside : ∀ i < count, new.read region i = .ok (value i)
  beyond : ∀ i, count ≤ i → new.read region i = old.read region i
  outside : ∀ p, (∀ i < count, region.position? i ≠ some p) → new.mask.get p = old.mask.get p

theorem Wrote.write (inRange : ∀ v ∈ region, v.InRange) (injective : ∀ v ∈ region, v.Injective)
    {q : Register} {value : Nat → Bool} (before : region.Wrote r i value q) (room : region.Roomy i)
    (run : Runs (region.write i (value i)) q () r') : region.Wrote r (i + 1) value r' := by
  obtain ⟨p, found, -, rfl⟩ := (runs_write_iff inRange room).1 run
  refine ⟨fun j lt => ?_, fun j le => ?_, fun p' none => ?_⟩
  · rw [read_put inRange injective found]
    split
    · next same => rw [same]
    · next other => exact before.inside j (by omega)
  · rw [read_put inRange injective found, if_neg (by omega), before.beyond j (by omega)]
  · have apart : p' ≠ p := by
      rintro rfl
      exact none i (Nat.lt_succ_self i) found
    show (q.mask.put p (value i)).get p' = _
    rw [Mask.get_put, if_neg apart, before.outside p' fun j lt => none j (by omega)]

theorem wrote_of_writeNat (inRange : ∀ v ∈ region, v.InRange)
    (injective : ∀ v ∈ region, v.Injective) {value : Nat}
    (room : ∀ i < digitCount value, region.Roomy i) (run : Runs (region.writeNat value) r () r') :
    region.Wrote r (digitCount value) value.testBit r' := by
  have result := Runs.forRange run (fun i q => region.Wrote r i value.testBit q)
    ⟨fun j lt => absurd lt (Nat.not_lt_zero j), fun _ _ => rfl, fun _ _ => rfl⟩
    fun i q q' _ lt before done => before.write inRange injective (room i (by omega)) done
  rwa [Nat.zero_add] at result

/-- A number can be written exactly if each of its digits can. -/
theorem exists_runs_writeNat_iff (inRange : ∀ v ∈ region, v.InRange) {value : Nat}
    (room : ∀ i < digitCount value, region.Roomy i) :
    (∃ r', Runs (region.writeNat value) r () r') ↔
      ∀ i < digitCount value, ∃ p, region.position? i = some p ∧ r.Admits p := by
  -- a write that is admitted changes nothing about which positions are
  constructor
  · rintro ⟨r', run⟩
    have result := Runs.forRange run
      (fun i q => (∀ p, q.Admits p ↔ r.Admits p) ∧
        ∀ j < i, ∃ p, region.position? j = some p ∧ r.Admits p)
      ⟨fun _ => Iff.rfl, fun j lt => absurd lt (Nat.not_lt_zero j)⟩
      fun i q q' _ lt before done => ?_
    · rw [Nat.zero_add] at result
      exact result.2
    · obtain ⟨kept, earlier⟩ := before
      obtain ⟨p, found, admits, rfl⟩ := (runs_write_iff inRange (room i (by omega))).1 done
      refine ⟨fun p' => (Register.admits_put admits _ p').trans (kept p'), fun j lt => ?_⟩
      by_cases last : j = i
      · exact ⟨p, last ▸ found, (kept p).1 admits⟩
      · exact earlier j (by omega)
  · intro writable
    have upholds : Upholds (fun q : Register => ∀ p, q.Admits p ↔ r.Admits p) (fun _ => True)
        (region.writeNat value) := by
      refine .forRange fun i _ lt q kept => ?_
      have room := room i (by omega)
      obtain ⟨p, found, admits⟩ := writable i (by omega)
      constructor
      · intro x failed
        rcases (exists_fails_write_iff inRange room).1 ⟨x, failed⟩ with missing | ⟨p', same, short⟩
        · rw [missing] at found
          cases found
        · obtain rfl := Option.some.inj (found.symm.trans same)
          exact absurd ((kept p).2 admits) (Register.not_admits_iff.2 short)
      · intro _ q' done p'
        obtain ⟨_, -, here, rfl⟩ := (runs_write_iff inRange room).1 done
        exact (Register.admits_put here _ p').trans (kept p')
    obtain ⟨_, r', run⟩ := upholds.exists_runs fun _ => Iff.rfl
    exact ⟨r', run⟩

/-- What has been written is read back as a number, if there was nothing behind it. -/
theorem Wrote.valueAt (inRange : ∀ v ∈ region, v.InRange) {value width : Nat}
    (wrote : region.Wrote r (digitCount value) value.testBit r')
    (fits : digitCount value ≤ width) (short : width ≤ 64)
    (clear : ∀ i, digitCount value ≤ i → i < width → r.read region i = .ok false) :
    Bits.valueAt ⟨r', region⟩ 0 width = .ok value := by
  have readable : Bits.Readable ⟨r', region⟩ := fun i => ⟨_, r'.read_eq inRange i⟩
  obtain ⟨m, shows⟩ := readable.exists_shows
  have small : 0 + width ≤ Checked.limit := by
    have : 64 ≤ Checked.limit := by decide
    omega
  rw [shows.valueAt small short]
  refine congrArg Except.ok (Mask.valueAt_eq (lt_two_pow_of_digitCount_le fits) fun i lt => ?_)
  rw [Nat.zero_add]
  apply Except.ok.inj
  rw [← shows.get i]
  show r'.read region i = _
  by_cases written : i < digitCount value
  · exact wrote.inside i written
  · have behind := Nat.le_of_not_lt written
    rw [wrote.beyond i behind, clear i behind lt, testBit_of_digitCount_le behind]

/-- A stack of views shows the bits at the composed positions. A write that succeeds changes one bit,
one that fails changes nothing, and it fails exactly where there is no position below or the register
refuses it. A number that is written changes the bits of its digits alone, and is read back. -/
theorem stacked_views_obey_laws (inRange : ∀ v ∈ region, v.InRange)
    (injective : ∀ v ∈ region, v.Injective) (r : Register) :
    (∀ i, r.read region i = .ok ((region.position? i).elim false r.mask.get)) ∧
    (∀ i value, region.Roomy i →
      (∀ r', Runs (region.write i value) r () r' →
        r'.read region i = .ok value ∧ (∀ j, j ≠ i → r'.read region j = r.read region j) ∧
        ∀ p, (∀ j, region.position? j ≠ some p) → r'.mask.get p = r.mask.get p) ∧
      (∀ x, Fails (region.write i value) r x →
        ((region.write i value).outcome r).2 = r ∧ ¬ x.IsFault) ∧
      ((∃ x, Fails (region.write i value) r x) ↔
        region.position? i = none ∨
          ∃ p, region.position? i = some p ∧ r.growable = false ∧ r.mask.size ≤ p)) ∧
    ∀ value, (∀ i < digitCount value, region.Roomy i) →
      ((∃ r', Runs (region.writeNat value) r () r') ↔
        ∀ i < digitCount value, ∃ p, region.position? i = some p ∧ r.Admits p) ∧
      ∀ r', Runs (region.writeNat value) r () r' →
        (∀ i < digitCount value, r'.read region i = .ok (value.testBit i)) ∧
        (∀ i, digitCount value ≤ i → r'.read region i = r.read region i) ∧
        (∀ p, (∀ i < digitCount value, region.position? i ≠ some p) →
          r'.mask.get p = r.mask.get p) ∧
        ∀ width, digitCount value ≤ width → width ≤ 64 →
          (∀ i, digitCount value ≤ i → i < width → r.read region i = .ok false) →
          Bits.valueAt ⟨r', region⟩ 0 width = .ok value := by
  refine ⟨r.read_eq inRange, fun i value room => ⟨fun r' run => ?_, fun x => ?_, ?_⟩,
    fun value room => ⟨exists_runs_writeNat_iff inRange room, fun r' run => ?_⟩⟩
  · obtain ⟨p, found, -, rfl⟩ := (runs_write_iff inRange room).1 run
    refine ⟨?_, fun j other => ?_, fun q none => ?_⟩
    · rw [read_put inRange injective found, if_pos rfl]
    · rw [read_put inRange injective found, if_neg other]
    · refine (r.mask.get_put p value q).trans (if_neg ?_)
      rintro rfl
      exact none i found
  · exact outcome_of_fails_write inRange room
  · exact exists_fails_write_iff inRange room
  · have wrote := wrote_of_writeNat inRange injective room run
    exact ⟨wrote.inside, wrote.beyond, wrote.outside, fun width => wrote.valueAt inRange⟩

def spread : Group := .concat (.slice (.offset 2 4) 1 2) (.table [5, 0])

def gathered : Region := [.mapped spread, .window 1 7]

theorem stacked_views_obey_laws_gathered :
    (∃ r', Runs (gathered.writeNat 0b1101) ⟨true, Mask.ofNat 0b111 3⟩ () r' ∧
      Bits.valueAt ⟨r', gathered⟩ 0 4 = .ok 0b1101 ∧ r'.mask.get 2 = true) ∧
    ∃ x, Fails (gathered.write 0 true) ⟨false, Mask.ofNat 0b111 3⟩ x := by
  have entries : spread.InRange :=
    ⟨by decide, ⟨by decide, by decide, by decide⟩, (by decide : 2 < Checked.limit)⟩
  have distinct : ∀ i < 4, ∀ j < 4, spread.target i = spread.target j → i = j := by decide
  have window : (View.window 1 7).InRange := by
    show ∀ i < 7, 1 + i < Checked.limit
    decide
  have inRange : ∀ v ∈ gathered, v.InRange :=
    List.forall_mem_cons.2 ⟨entries, List.forall_mem_singleton.2 window⟩
  have injective : ∀ v ∈ gathered, v.Injective := by
    refine List.forall_mem_cons.2 ⟨fun i j lt lt' same => ?_, List.forall_mem_singleton.2 trivial⟩
    rw [entries.entry lt, entries.entry lt'] at same
    exact distinct i lt j lt' (Except.ok.inj same)
  have placed : ∀ i < 4, ∃ p < 7, gathered.position? i = some p := by decide
  have room : ∀ i < digitCount 0b1101, gathered.Roomy i := by
    intro i lt p found
    obtain ⟨q, small, there⟩ := placed i lt
    obtain rfl := Option.some.inj (there.symm.trans found)
    exact (by decide : ∀ q < 7, q + 1 < Checked.limit) q small
  obtain ⟨-, -, number⟩ := stacked_views_obey_laws inRange injective ⟨true, Mask.ofNat 0b111 3⟩
  obtain ⟨-, write, -⟩ := stacked_views_obey_laws inRange injective ⟨false, Mask.ofNat 0b111 3⟩
  obtain ⟨writable, result⟩ := number 0b1101 room
  constructor
  · obtain ⟨r', run⟩ := writable.2 fun i lt => by
      obtain ⟨p, -, there⟩ := placed i lt
      exact ⟨p, there, .inl rfl⟩
    obtain ⟨-, -, outside, back⟩ := result r' run
    refine ⟨r', run, back 4 (by decide) (by decide) fun i le lt => ?_, ?_⟩
    · exact absurd lt (Nat.not_lt.2 le)
    · exact outside 2 (by decide)
  · exact (write 0 true (room 0 (by decide))).2.2.2 (.inr ⟨6, rfl, rfl, by decide⟩)

end Region

end FsmFabric
