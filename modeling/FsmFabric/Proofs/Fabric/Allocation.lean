import FsmFabric.Fabric.Allocation
import FsmFabric.Proofs.Chip.BestFit
import FsmFabric.Proofs.Expr.Reads
import Mathlib.Data.List.Nodup

/-!
# Every table observes the inputs of its condition

Inputs are served one after the other. While one is served, the demand shows exactly the pins of the
tables that still wait for it; a table stops waiting when it is given a pin. Multiplexers are given
away with all their pins, so no pin changes hands.
-/

namespace FsmFabric

def Lut.Has (t : Lut) (pin : Nat) : Prop := t.firstPin ≤ pin ∧ pin < t.firstPin + t.pins

instance (t : Lut) (pin : Nat) : Decidable (t.Has pin) := inferInstanceAs (Decidable (_ ∧ _))

namespace Fabric

/-- Every pin belongs to one table. -/
structure Tiled (f : Fabric) : Prop where
  covered : ∀ pin, pin < f.wiring.pinCount → ∃ (n : Nat) (t : Lut), f.luts[n]? = some t ∧ t.Has pin
  apart : ∀ (n n' : Nat) (t t' : Lut) (pin : Nat), f.luts[n]? = some t → f.luts[n']? = some t' →
    t.Has pin → t'.Has pin → n = n'

variable {f : Fabric}

private theorem tableOf_fold (pin : Nat) (l : List (Lut × Nat)) (found : Nat) :
    let result := l.foldl (fun found (t, n) =>
      if t.firstPin ≤ pin ∧ pin < t.firstPin + t.pins then n else found) found
    (result = found ∧ ∀ entry ∈ l, ¬ entry.1.Has pin) ∨ ∃ t, (t, result) ∈ l ∧ t.Has pin := by
  induction l generalizing found with
  | nil => exact .inl ⟨rfl, fun _ member => nomatch member⟩
  | cons entry rest ih =>
    obtain ⟨t, n⟩ := entry
    simp only [List.foldl_cons]
    rcases ih (if t.firstPin ≤ pin ∧ pin < t.firstPin + t.pins then n else found) with
      ⟨same, none⟩ | ⟨t', member, has⟩
    · rw [same]
      split
      · next has => exact .inr ⟨t, List.mem_cons_self, has⟩
      · next lacks => exact .inl ⟨rfl, List.forall_mem_cons.2 ⟨lacks, none⟩⟩
    · exact .inr ⟨t', List.mem_cons_of_mem _ member, has⟩

/-- The table that a pin belongs to is the one that reads it. -/
theorem Tiled.tableOf_eq (tiled : f.Tiled) {n : Nat} {t : Lut} {pin : Nat}
    (found : f.luts[n]? = some t) (has : t.Has pin) : f.tableOf pin = n := by
  rcases tableOf_fold pin f.luts.zipIdx 0 with ⟨-, none⟩ | ⟨t', member, has'⟩
  · exact absurd has (none (t, n) (List.mem_zipIdx_iff_getElem?.2 found))
  · exact tiled.apart _ _ _ _ pin (List.mem_zipIdx_iff_getElem?.1 member) found has' has

theorem get_putPins (t : Lut) (value : Bool) (m : Mask) (pin : Nat) :
    (putPins t value m).get pin = if t.Has pin then value else m.get pin := by
  unfold putPins
  have general : ∀ (offsets : List Nat) (m : Mask),
      (offsets.foldl (fun m p => m.put (t.firstPin + p) value) m).get pin =
        if ∃ p ∈ offsets, pin = t.firstPin + p then value else m.get pin := by
    intro offsets
    induction offsets with
    | nil => simp
    | cons p rest ih =>
      intro m
      rw [List.foldl_cons, ih, Mask.get_put]
      by_cases later : ∃ p ∈ rest, pin = t.firstPin + p
      · rw [if_pos later, if_pos (later.imp fun q found => ⟨List.mem_cons_of_mem _ found.1, found.2⟩)]
      · by_cases here : pin = t.firstPin + p <;> simp [later, here]
  rw [general]
  refine if_congr ⟨?_, fun has => ⟨pin - t.firstPin, ?_, ?_⟩⟩ rfl rfl
  · rintro ⟨p, member, rfl⟩
    rw [List.mem_range] at member
    exact ⟨by omega, by omega⟩
  · rw [List.mem_range]
    have := has.2
    have := has.1
    omega
  · have := has.1
    omega

/-- The demand of the tables that wait for an input. -/
structure Waits (f : Fabric) (d : Demand) (waiting : List Nat) : Prop where
  nodup : waiting.Nodup
  tables : d.tables = waiting.length
  pins : ∀ pin, d.pins.get pin = true ↔
    ∃ n ∈ waiting, ∃ t : Lut, f.luts[n]? = some t ∧ t.Has pin

def Served (f : Fabric) (observed : List (Option Nat)) (input n : Nat) : Prop :=
  ∃ (t : Lut) (pin : Nat), f.luts[n]? = some t ∧ t.Has pin ∧ observed[pin]? = some (some input)

/-- Giving a pin away makes its table stop waiting, if it did. -/
theorem Waits.givePin (tiled : f.Tiled) {d d' : Demand} {a a' : Allocation} {waiting : List Nat}
    {input pin : Nat} (waits : f.Waits d waiting) (inside : pin < f.wiring.pinCount)
    (done : f.givePin input d a pin = .ok (d', a')) :
    ∃ (n : Nat) (t : Lut), f.luts[n]? = some t ∧ t.Has pin ∧ f.Waits d' (waiting.erase n) ∧
      a' = ⟨a.observed.set pin (some input), a.used.insert pin⟩ := by
  obtain ⟨n, t, found, has⟩ := tiled.covered pin inside
  refine ⟨n, t, found, has, ?_⟩
  unfold Fabric.givePin at done
  rw [tiled.tableOf_eq found has, found] at done
  simp only at done
  -- the table waits exactly if the pin is still welcome
  have waitsHere : d.pins.get pin = true ↔ n ∈ waiting := by
    rw [waits.pins]
    constructor
    · rintro ⟨n', member, t', found', has'⟩
      rwa [tiled.apart n n' t t' pin found found' has has']
    · exact fun member => ⟨n, member, t, found, has⟩
  obtain ⟨rfl, rfl⟩ : ⟨putPins t false d.pins, (waiting.erase n).length⟩ = d' ∧
      ⟨a.observed.set pin (some input), a.used.insert pin⟩ = a' := by
    split at done
    · next welcome =>
      obtain ⟨tables, counted, done⟩ := bind_eq_ok.1 done
      obtain ⟨-, rfl⟩ := Checked.sub_eq_ok.1 counted
      rw [List.length_erase_of_mem (waitsHere.1 welcome), ← waits.tables]
      exact Prod.mk.inj (Except.ok.inj done)
    · next unwelcome =>
      rw [List.erase_of_not_mem fun member => unwelcome (waitsHere.2 member), ← waits.tables]
      exact Prod.mk.inj (Except.ok.inj done)
  refine ⟨⟨waits.nodup.erase n, rfl, fun p => ?_⟩, rfl⟩
  rw [get_putPins]
  split
  · next has' =>
    refine ⟨nofun, ?_⟩
    rintro ⟨n', member, t', found', has''⟩
    obtain rfl := tiled.apart n n' t t' p found found' has' has''
    exact absurd member waits.nodup.not_mem_erase
  · next lacks =>
    rw [waits.pins]
    constructor
    · rintro ⟨n', member, t', found', has'⟩
      refine ⟨n', (waits.nodup.mem_erase_iff).2 ⟨?_, member⟩, t', found', has'⟩
      rintro rfl
      obtain rfl := Option.some.inj (found.symm.trans found')
      exact lacks has'
    · rintro ⟨n', member, rest⟩
      exact ⟨n', List.mem_of_mem_erase member, rest⟩

theorem Waits.givePins (tiled : f.Tiled) {input : Nat} {pins : List Nat}
    (inside : ∀ pin ∈ pins, pin < f.wiring.pinCount) {d d' : Demand} {a a' : Allocation}
    {waiting : List Nat} (waits : f.Waits d waiting)
    (done : f.givePins input d a pins = .ok (d', a')) :
    ∃ waiting', f.Waits d' waiting' ∧
      (∀ n ∈ waiting, n ∈ waiting' ∨
        ∃ (t : Lut) (pin : Nat), f.luts[n]? = some t ∧ t.Has pin ∧ pin ∈ pins) ∧
      a'.observed.length = a.observed.length ∧
      (∀ pin, pin < a.observed.length → a'.observed[pin]? =
        if pin ∈ pins then some (some input) else a.observed[pin]?) ∧
      ∀ pin, a'.used.get pin = (decide (pin ∈ pins) || a.used.get pin) := by
  induction pins generalizing d a waiting with
  | nil =>
    cases done
    exact ⟨waiting, waits, fun n member => .inl member, rfl, fun _ _ => by simp, fun _ => by simp⟩
  | cons pin rest ih =>
    obtain ⟨⟨d₁, a₁⟩, first, done⟩ := bind_eq_ok.1 done
    obtain ⟨n, t, found, has, waits₁, rfl⟩ := waits.givePin tiled (inside pin List.mem_cons_self) first
    obtain ⟨waiting', waits', left, length, observed, used⟩ :=
      ih (fun p member => inside p (List.mem_cons_of_mem _ member)) waits₁ done
    simp only [List.length_set] at length observed
    refine ⟨waiting', waits', fun n' member => ?_, length, fun p lt => ?_, fun p => ?_⟩
    · by_cases same : n' = n
      · subst same
        exact .inr ⟨t, pin, found, has, List.mem_cons_self⟩
      · refine (left n' ((List.mem_erase_of_ne same).2 member)).imp_right ?_
        rintro ⟨t', p, found', has', later⟩
        exact ⟨t', p, found', has', List.mem_cons_of_mem _ later⟩
    · rw [observed p lt]
      by_cases later : p ∈ rest
      · simp [later]
      · by_cases here : p = pin
        · subst here
          simp [later, lt]
        · simp [later, here, List.getElem?_set_ne (Ne.symm here)]
    · rw [used, Mask.get_insert]
      by_cases here : p = pin <;> simp [here]

/-- The pins of a multiplexer observe the same, and the used ones are those that observe an
input. -/
structure Allots (f : Fabric) (a : Allocation) : Prop where
  length : a.observed.length = f.wiring.pinCount
  used : ∀ pin, a.used.get pin = true ↔ ∃ i, a.observed[pin]? = some (some i)
  shared : ∀ (p q mux : Nat), f.wiring.drivers[p]? = some mux → f.wiring.drivers[q]? = some mux →
    a.observed[p]? = a.observed[q]?

theorem Allots.whole {a : Allocation} (allots : f.Allots a) {p q mux : Nat}
    (driverP : f.wiring.drivers[p]? = some mux) (driverQ : f.wiring.drivers[q]? = some mux)
    (used : a.used.get p = true) : a.used.get q = true := by
  rw [allots.used] at used ⊢
  rwa [← allots.shared p q mux driverP driverQ]

/-- No pin is given away yet. -/
theorem allots_start (f : Fabric) :
    f.Allots ⟨List.replicate f.wiring.pinCount none, Mask.empty⟩ := by
  have blank {p mux : Nat} (driver : f.wiring.drivers[p]? = some mux) :
      (List.replicate f.wiring.pinCount (none : Option Nat))[p]? = some none := by
    have inside : p < f.wiring.pinCount := (List.getElem?_eq_some_iff.1 driver).1
    rw [List.getElem?_replicate, if_pos inside]
  refine ⟨List.length_replicate, fun pin => ?_, fun p q mux driverP driverQ => ?_⟩
  · simp [Mask.empty, List.getElem?_replicate]
  · rw [blank driverP, blank driverQ]

/-- Pins that observe an input go on observing it, and new ones observe the given input. -/
structure Extended (input : Nat) (observed observed' : List (Option Nat)) : Prop where
  kept : ∀ (pin i : Nat), observed[pin]? = some (some i) → observed'[pin]? = some (some i)
  new : ∀ (pin i : Nat), observed'[pin]? = some (some i) → i = input ∨ observed[pin]? = some (some i)

theorem Extended.trans {input : Nat} {a b c : List (Option Nat)} (first : Extended input a b)
    (second : Extended input b c) : Extended input a c where
  kept pin i old := second.kept pin i (first.kept pin i old)
  new pin i found := (second.new pin i found).elim .inl (first.new pin i)

/-- The best multiplexer for a demand is given away as a whole, and was not used before. -/
theorem Waits.giveMux (tiled : f.Tiled) {input parties : Nat} {d d' : Demand} {a a' : Allocation}
    {waiting pins : List Nat} (waits : f.Waits d waiting) (allots : f.Allots a)
    (fit : f.wiring.bestFit (d.pins.without a.used) parties = some pins)
    (done : f.givePins input d a pins = .ok (d', a')) :
    f.Allots a' ∧ Extended input a.observed a'.observed ∧
      (∃ pin, pin < f.wiring.pinCount ∧ a.used.get pin = false ∧ a'.used.get pin = true) ∧
      ∃ waiting', f.Waits d' waiting' ∧
        ∀ n ∈ waiting, n ∈ waiting' ∨ f.Served a'.observed input n := by
  obtain ⟨mux, welcome, rfl, demanded, driven⟩ := Wiring.exists_of_bestFit fit
  rw [Mask.get_without, Bool.and_eq_true, Bool.not_eq_true'] at demanded
  have inside : ∀ pin ∈ f.wiring.pinsOf mux, pin < f.wiring.pinCount := fun pin member =>
    (List.getElem?_eq_some_iff.1 (Wiring.mem_pinsOf.1 member)).1
  have unused : ∀ pin ∈ f.wiring.pinsOf mux, a.used.get pin = false := by
    intro pin member
    rw [← Bool.not_eq_true]
    intro used
    have := allots.whole (Wiring.mem_pinsOf.1 member) driven used
    rw [demanded.2] at this
    cases this
  obtain ⟨waiting', waits', left, length, observed, used⟩ := waits.givePins tiled inside done
  have bound {pin : Nat} {v : Option Nat} {l : List (Option Nat)} (found : l[pin]? = some v) :
      pin < l.length := (List.getElem?_eq_some_iff.1 found).1
  refine ⟨⟨length.trans allots.length, fun pin => ?_, ?_⟩, ⟨fun pin i old => ?_, fun pin i found => ?_⟩,
    ⟨welcome, inside welcome (Wiring.mem_pinsOf.2 driven), demanded.2, ?_⟩,
    waiting', waits', fun n member => (left n member).imp_right ?_⟩
  · rw [used, Bool.or_eq_true, decide_eq_true_iff, allots.used]
    constructor
    · rintro (given | ⟨i, old⟩)
      · have lt : pin < a.observed.length := allots.length ▸ inside pin given
        exact ⟨input, by rw [observed pin lt, if_pos given]⟩
      · rw [observed pin (bound old)]
        split
        · exact ⟨input, rfl⟩
        · exact ⟨i, old⟩
    · rintro ⟨i, found⟩
      rw [observed pin (length ▸ bound found)] at found
      split at found
      · next given => exact .inl given
      · exact .inr ⟨i, found⟩
  · intro p q mux' driverP driverQ
    have ltP : p < a.observed.length :=
      allots.length ▸ (List.getElem?_eq_some_iff.1 driverP).1
    have ltQ : q < a.observed.length :=
      allots.length ▸ (List.getElem?_eq_some_iff.1 driverQ).1
    have together : p ∈ f.wiring.pinsOf mux ↔ q ∈ f.wiring.pinsOf mux := by
      rw [Wiring.mem_pinsOf, Wiring.mem_pinsOf, driverP, driverQ]
    rw [observed p ltP, observed q ltQ, allots.shared p q mux' driverP driverQ]
    exact if_congr together rfl rfl
  · rw [observed pin (bound old), if_neg, old]
    intro given
    have := (allots.used pin).2 ⟨i, old⟩
    rw [unused pin given] at this
    cases this
  · rw [observed pin (length ▸ bound found)] at found
    split at found
    · exact .inl (Option.some.inj (Option.some.inj found)).symm
    · exact .inr found
  · rw [used, decide_eq_true (Wiring.mem_pinsOf.2 driven), Bool.true_or]
  · rintro ⟨t, pin, found, has, given⟩
    exact ⟨t, pin, found, has, by rw [observed pin (allots.length ▸ inside pin given), if_pos given]⟩

/-- Serving an input gives a pin to every table that waits for it. -/
theorem Waits.serve (tiled : f.Tiled) {place : Option Position} {input free : Nat} {d : Demand}
    {a a' : Allocation} {waiting : List Nat} (waits : f.Waits d waiting) (allots : f.Allots a)
    (done : f.serve place input free d a = .ok a') :
    f.Allots a' ∧ Extended input a.observed a'.observed ∧
      ∀ n ∈ waiting, f.Served a'.observed input n := by
  -- without a waiting table the allocation is as it was
  have finished {d : Demand} {a : Allocation} {waiting : List Nat} (waits : f.Waits d waiting)
      (allots : f.Allots a) (none : d.tables = 0) :
      f.Allots a ∧ Extended input a.observed a.observed ∧
        ∀ n ∈ waiting, f.Served a.observed input n := by
    rw [waits.tables, List.length_eq_zero_iff] at none
    subst none
    exact ⟨allots, ⟨fun _ _ kept => kept, fun _ _ old => .inr old⟩, fun _ member => nomatch member⟩
  induction free generalizing d a waiting with
  | zero =>
    unfold Fabric.serve at done
    split at done
    · next none =>
      cases done
      exact finished waits allots none
    · split at done
      · next same => cases same
      · cases done
  | succ free ih =>
    unfold Fabric.serve at done
    split at done
    · next none =>
      cases done
      exact finished waits allots none
    · split at done
      · next pins _ fit same =>
        cases same
        obtain ⟨⟨d₁, a₁⟩, given, done⟩ := bind_eq_ok.1 done
        obtain ⟨allots₁, extended₁, -, waiting₁, waits₁, left⟩ :=
          waits.giveMux tiled allots fit (liftM_eq_ok.1 given)
        obtain ⟨allots', extended', served⟩ := ih waits₁ allots₁ done
        refine ⟨allots', extended₁.trans extended', fun n member => ?_⟩
        rcases left n member with still | ⟨t, pin, found, has, here⟩
        · exact served n still
        · exact ⟨t, pin, found, has, extended'.kept pin input here⟩
      · cases done

private theorem waits_fold (input : Nat) (l : List (Lut × List Nat)) {k : Nat} {d : Demand}
    {waiting : List Nat}
    (tables : ∀ (j : Nat) (t : Lut) (inputs : List Nat), l[j]? = some (t, inputs) →
      f.luts[k + j]? = some t)
    (below : ∀ n ∈ waiting, n < k) (waits : f.Waits d waiting) :
    ∃ waiting', f.Waits (l.foldl (fun d (t, inputs) =>
        if inputs.contains input then ⟨putPins t true d.pins, d.tables + 1⟩ else d) d) waiting' ∧
      (∀ n ∈ waiting, n ∈ waiting') ∧
      ∀ (j : Nat) (t : Lut) (inputs : List Nat), l[j]? = some (t, inputs) → input ∈ inputs →
        k + j ∈ waiting' := by
  induction l generalizing k d waiting with
  | nil => exact ⟨waiting, waits, fun _ member => member, fun j t inputs found => by simp at found⟩
  | cons entry rest ih =>
    obtain ⟨t, inputs⟩ := entry
    have here : f.luts[k]? = some t := tables 0 t inputs rfl
    have later : ∀ (j : Nat) (t : Lut) (inputs : List Nat), rest[j]? = some (t, inputs) →
        f.luts[k + 1 + j]? = some t := fun j t' inputs' found => by
      rw [Nat.add_right_comm, Nat.add_assoc]
      exact tables (j + 1) t' inputs' (by simpa using found)
    simp only [List.foldl_cons]
    split
    · next reads =>
      have waits₁ : f.Waits ⟨putPins t true d.pins, d.tables + 1⟩ (k :: waiting) := by
        refine ⟨List.nodup_cons.2 ⟨fun member => absurd (below k member) (Nat.lt_irrefl k),
          waits.nodup⟩, by simp [waits.tables], fun pin => ?_⟩
        rw [get_putPins]
        split
        · next has => exact ⟨fun _ => ⟨k, List.mem_cons_self, t, here, has⟩, fun _ => rfl⟩
        · next lacks =>
          rw [waits.pins]
          constructor
          · rintro ⟨n, member, rest⟩
            exact ⟨n, List.mem_cons_of_mem _ member, rest⟩
          · rintro ⟨n, member, t', found, has⟩
            rcases List.mem_cons.1 member with rfl | member
            · obtain rfl := Option.some.inj (here.symm.trans found)
              exact absurd has lacks
            · exact ⟨n, member, t', found, has⟩
      obtain ⟨waiting', waits', kept, reading⟩ := ih later
        (List.forall_mem_cons.2 ⟨Nat.lt_succ_self k, fun n member => Nat.lt_succ_of_lt (below n member)⟩)
        waits₁
      refine ⟨waiting', waits', fun n member => kept n (List.mem_cons_of_mem _ member), ?_⟩
      intro j t' inputs' found member
      cases j with
      | zero => exact kept k List.mem_cons_self
      | succ j =>
        rw [Nat.add_comm j 1, ← Nat.add_assoc]
        exact reading j t' inputs' (by simpa using found) member
    · next skips =>
      obtain ⟨waiting', waits', kept, reading⟩ := ih later
        (fun n member => Nat.lt_succ_of_lt (below n member)) waits
      refine ⟨waiting', waits', kept, fun j t' inputs' found member => ?_⟩
      cases j with
      | zero =>
        cases found
        exact absurd (List.contains_iff_mem.2 member) skips
      | succ j =>
        rw [Nat.add_comm j 1, ← Nat.add_assoc]
        exact reading j t' inputs' (by simpa using found) member

/-- The demand for an input is that of the tables that read it. -/
theorem exists_waits (f : Fabric) (reads : List (List Nat)) (input : Nat) :
    ∃ waiting, f.Waits (f.demand reads input) waiting ∧
      ∀ (n : Nat) (t : Lut) (inputs : List Nat), f.luts[n]? = some t → reads[n]? = some inputs →
        input ∈ inputs → n ∈ waiting := by
  have idle : f.Waits ⟨Mask.empty, 0⟩ [] := ⟨List.nodup_nil, rfl, fun pin => by simp [Mask.empty]⟩
  have tables : ∀ (j : Nat) (t : Lut) (inputs : List Nat),
      (f.luts.zip reads)[j]? = some (t, inputs) → f.luts[0 + j]? = some t :=
    fun j t inputs found => by
      rw [Nat.zero_add]
      exact (List.getElem?_zip_eq_some.1 found).1
  obtain ⟨waiting, waits, -, reading⟩ := waits_fold input (f.luts.zip reads) tables (by simp) idle
  refine ⟨waiting, waits, fun n t inputs table found member => ?_⟩
  have := reading n t inputs (List.getElem?_zip_eq_some.2 ⟨table, found⟩) member
  rwa [Nat.zero_add] at this

/-- What is served stays served, and every input gets a pin at each table that reads it. -/
theorem Allots.serveAll (tiled : f.Tiled) {place : Option Position} {reads : List (List Nat)}
    {inputs : List Nat} {a a' : Allocation} (allots : f.Allots a)
    (done : f.serveAll place reads inputs a = .ok a') :
    f.Allots a' ∧
      (∀ (pin i : Nat), a.observed[pin]? = some (some i) → a'.observed[pin]? = some (some i)) ∧
      (∀ (pin i : Nat), a'.observed[pin]? = some (some i) →
        i ∈ inputs ∨ a.observed[pin]? = some (some i)) ∧
      ∀ (input n : Nat) (t : Lut) (read : List Nat), input ∈ inputs → f.luts[n]? = some t →
        reads[n]? = some read → input ∈ read → f.Served a'.observed input n := by
  induction inputs generalizing a with
  | nil =>
    cases done
    exact ⟨allots, fun _ _ kept => kept, fun _ _ old => .inr old, fun _ _ _ _ member => nomatch member⟩
  | cons input rest ih =>
    obtain ⟨a₁, first, done⟩ := bind_eq_ok.1 done
    obtain ⟨waiting, waits, reading⟩ := f.exists_waits reads input
    obtain ⟨allots₁, extended, served⟩ := waits.serve tiled allots first
    obtain ⟨allots', kept, new, later⟩ := ih allots₁ done
    refine ⟨allots', fun pin i old => kept pin i (extended.kept pin i old), fun pin i found => ?_, ?_⟩
    · rcases new pin i found with member | old
      · exact .inl (List.mem_cons_of_mem _ member)
      · exact (extended.new pin i old).imp_left fun same => List.mem_cons.2 (.inl same)
    · intro input' n t read member table found here
      rcases List.mem_cons.1 member with rfl | member
      · obtain ⟨t', pin, table', has, observed⟩ := served n (reading n t read table found here)
        exact ⟨t', pin, table', has, kept pin _ observed⟩
      · exact later input' n t read member table found here

/-- The inputs that a table reads are those of its condition, and can all be selected. -/
theorem mem_of_readsOf {place : Option Position} {n : Nat} {t : Lut} {condition : Option Expr}
    {read : List Nat} (found : f.readsOf place n t condition = .ok read) :
    (∀ e, condition = some e → ∀ i ∈ e.reads, i ∈ read) ∧ ∀ i ∈ read, i < f.inputs := by
  obtain ⟨support, supported, found⟩ := bind_eq_ok.1 found
  have supported := liftM_eq_ok.1 supported
  split at found
  · cases found
  · split at found
    · cases found
    · next none =>
      cases found
      refine ⟨fun e same i member => ?_, fun i member => ?_⟩
      · subst same
        rw [Mask.mem_ones]
        exact (Expr.get_support supported i).2 member
      · have := List.find?_eq_none.1 none i member
        simpa using this

/-- The pins of a multiplexer observe the same, and every table has a pin for each input of its
condition. -/
theorem served_of_allocate (tiled : f.Tiled) {place : Option Position}
    {conditions : List (Option Expr)} {observed : List (Option Nat)}
    (done : f.allocate place conditions = .ok observed) :
    observed.length = f.wiring.pinCount ∧
      (∀ (p q mux : Nat), f.wiring.drivers[p]? = some mux → f.wiring.drivers[q]? = some mux →
        observed[p]? = observed[q]?) ∧
      (∀ (pin i : Nat), observed[pin]? = some (some i) → i < f.inputs) ∧
      ∀ (n : Nat) (t : Lut) (e : Expr), f.luts[n]? = some t → conditions[n]? = some (some e) →
        ∀ i ∈ e.reads, f.Served observed i n := by
  obtain ⟨_, -, done⟩ := bind_eq_ok.1 done
  obtain ⟨reads, mapped, done⟩ := bind_eq_ok.1 done
  obtain ⟨a, all, done⟩ := bind_eq_ok.1 done
  cases done
  obtain ⟨allots, -, new, served⟩ := f.allots_start.serveAll tiled all
  have reading {n : Nat} {t : Lut} (table : f.luts[n]? = some t) : ∃ read, reads[n]? = some read ∧
      f.readsOf place n t (conditions[n]?).join = .ok read := by
    have numbered : f.luts.zipIdx[n]? = some (t, n) := by simp [table]
    exact getElem?_of_mapM mapped numbered
  have mem_inputsRead {i : Nat} : i ∈ inputsRead reads ↔ i ∈ reads.flatten := by
    rw [inputsRead, Mask.mem_ones, Mask.get_ofOnes, decide_eq_true_iff]
  refine ⟨allots.length, allots.shared, fun pin i found => ?_,
    fun n t e table condition i member => ?_⟩
  · rcases new pin i found with member | old
    · obtain ⟨read, inside, member⟩ := List.mem_flatten.1 (mem_inputsRead.1 member)
      obtain ⟨⟨t, n⟩, -, found⟩ := exists_of_mem_mapM mapped inside
      exact (mem_of_readsOf found).2 i member
    · simp [List.getElem?_replicate] at old
  · obtain ⟨read, found, readsOf⟩ := reading table
    rw [condition] at readsOf
    have here := (mem_of_readsOf readsOf).1 e rfl i member
    exact served i n t read (mem_inputsRead.2 (List.mem_flatten.2 ⟨read, List.mem_of_getElem? found, here⟩))
      table found here

end Fabric

end FsmFabric
