import FsmFabric.Proofs.Bits.Range
import FsmFabric.Proofs.Chip.Wiring
import FsmFabric.Proofs.Image
import FsmFabric.Proofs.Ordered
import Mathlib.Data.List.Perm.Subperm
import Mathlib.Data.Nat.Nth
import Mathlib.Algebra.Ring.Nat

/-!
# When pins can be wired

Wiring succeeds if no pin is listed twice, every pin gets a multiplexer of the bank, and memory can
hold the tables. A listed pin gets its multiplexer, and the unlisted pins get the multiplexers 0, 1,
2, … in ascending order. Nothing depends on the order of the list.
-/

namespace FsmFabric

open Edit

namespace Wiring

variable {bank : MuxBank} {pins : Nat} {pairs pairs' : List (Nat × Nat)} {w : Wiring}

/-- The multiplexer of a pin: the listed one, or the next one after those of the unlisted pins
below. -/
def muxOf (pairs : List (Nat × Nat)) (pin : Nat) : Nat :=
  match pairs.lookup pin with
  | some mux => mux
  | none => pin - (pairs.filter fun p => p.1 < pin).length

theorem lookup_eq_some (once : (pairs.map Prod.fst).Nodup) {pin mux : Nat} :
    pairs.lookup pin = some mux ↔ (pin, mux) ∈ pairs := by
  induction pairs with
  | nil => simp
  | cons pair rest ih =>
    obtain ⟨pin', mux'⟩ := pair
    obtain ⟨new, once⟩ := List.nodup_cons.1 once
    rw [List.lookup_cons, List.mem_cons, Prod.mk.injEq]
    by_cases same : pin = pin'
    · subst same
      have other : (pin, mux) ∉ rest := fun member => new (List.mem_map.2 ⟨_, member, rfl⟩)
      simp [other, eq_comm]
    · simp [beq_false_of_ne same, same, ih once]

theorem muxOf_perm (perm : pairs.Perm pairs') (once : (pairs.map Prod.fst).Nodup) (pin : Nat) :
    muxOf pairs pin = muxOf pairs' pin := by
  have listed : pairs.lookup pin = pairs'.lookup pin := by
    ext mux
    rw [lookup_eq_some once, lookup_eq_some ((perm.map Prod.fst).nodup_iff.1 once), perm.mem_iff]
  unfold muxOf
  rw [listed, (perm.filter _).length_eq]

/-- No more pins are listed below a pin than there are, so the multiplexer of an unlisted pin is not
negative. -/
theorem length_listed_le (once : (pairs.map Prod.fst).Nodup) (pin : Nat) :
    (pairs.filter fun p => p.1 < pin).length ≤ pin := by
  have below : (pairs.filter fun p => p.1 < pin).map Prod.fst ⊆ List.range pin := by
    intro q member
    obtain ⟨p, listed, rfl⟩ := List.mem_map.1 member
    simpa using (List.mem_filter.1 listed).2
  have different : ((pairs.filter fun p => p.1 < pin).map Prod.fst).Nodup :=
    (List.filter_sublist.map Prod.fst).nodup once
  simpa using (different.subperm below).length_le

/-- The search finds the multiplexer of every pin. -/
theorem find_eq (ascending : Ordered.Ascending pairs) (pin : Nat) :
    find pairs pin = .ok (muxOf pairs pin) := by
  have once : (pairs.map Prod.fst).Nodup := List.pairwise_map.2 (ascending.imp Nat.ne_of_lt)
  rw [find, muxOf]
  rcases Ordered.search_cases ascending pin with ⟨i, mux, found, here⟩ | ⟨gap, unlisted⟩
  · rw [found, (lookup_eq_some once).2 (List.mem_of_getElem? here)]
    simp only [here]
  · have none : pairs.lookup pin = none := by
      refine Option.eq_none_iff_forall_ne_some.2 fun mux listed => ?_
      exact unlisted _ ((lookup_eq_some once).1 listed) rfl
    rw [gap, none]
    exact Checked.sub_eq_ok.2 ⟨length_listed_le once pin, rfl⟩

theorem driverOf_eq (ascending : Ordered.Ascending pairs) (pin : Nat) :
    driverOf bank pairs pin = if muxOf pairs pin < bank.count then .ok (muxOf pairs pin)
      else refuse (.mismatch (.muxOutside pin (muxOf pairs pin) bank.count)) := by
  rw [driverOf, find_eq ascending]
  rfl

theorem driverOf_eq_ok (ascending : Ordered.Ascending pairs) {pin mux : Nat} :
    driverOf bank pairs pin = .ok mux ↔ muxOf pairs pin = mux ∧ mux < bank.count := by
  rw [driverOf_eq ascending]
  split
  · next inBank =>
    rw [Except.ok.injEq, iff_self_and]
    rintro rfl
    exact inBank
  · next outside =>
    refine ⟨nofun, ?_⟩
    rintro ⟨rfl, inBank⟩
    exact absurd inBank outside

theorem spares_drivers (bank : MuxBank) (ascending : Ordered.Ascending pairs) (pins : Nat) :
    Spares Failure.IsFault (tabulate (driverOf bank pairs) 0 pins) := by
  rw [tabulate_eq_mapM]
  apply Spares.mapM
  intro pin _
  rw [driverOf_eq ascending]
  split
  · exact .ok _
  · exact .refused _

theorem drivers_eq_ok (ascending : Ordered.Ascending pairs) {drivers : List Nat} :
    tabulate (driverOf bank pairs) 0 pins = .ok drivers ↔
      (∀ pin < pins, muxOf pairs pin < bank.count) ∧
        drivers = (List.range pins).map (muxOf pairs) := by
  refine tabulate_eq_ok_iff fun pin _ mux => ?_
  rw [driverOf_eq_ok ascending]
  constructor
  · rintro ⟨rfl, inBank⟩
    exact ⟨inBank, rfl⟩
  · rintro ⟨inBank, rfl⟩
    exact ⟨rfl, inBank⟩

/-- The pins can be wired if none is listed twice, the tables have room and every pin gets a
multiplexer of the bank. -/
theorem resolve_eq_ok :
    resolve bank pins pairs = .ok w ↔
      (pairs.map Prod.fst).Nodup ∧ pins * numberBytes < 2 ^ 63 ∧
        bank.count * numberBytes < 2 ^ 63 ∧ (∀ pin < pins, muxOf pairs pin < bank.count) ∧
        w = ⟨bank, Ordered.sort pairs, (List.range pins).map (muxOf pairs)⟩ := by
  rw [← Ordered.repeated?_sort_eq_none]
  unfold resolve
  simp only
  split
  · next found => simp [found, refuse]
  · next none =>
    have once := Ordered.repeated?_sort_eq_none.1 none
    have sorted : muxOf (Ordered.sort pairs) = muxOf pairs :=
      funext fun pin => (muxOf_perm (Ordered.perm_sort pairs).symm once pin).symm
    simp only [bind_eq_ok, liftM_eq_ok, pure_eq_ok, drivers_eq_ok (Ordered.ascending_sort once),
      sorted, none, true_and]
    constructor
    · rintro ⟨_, pinRoom, _, muxRoom, _, ⟨inBank, rfl⟩, rfl⟩
      exact ⟨Checked.room_eq_ok.1 pinRoom, Checked.room_eq_ok.1 muxRoom, inBank, rfl⟩
    · rintro ⟨pinRoom, muxRoom, inBank, rfl⟩
      exact ⟨(), Checked.room_eq_ok.2 pinRoom, (), Checked.room_eq_ok.2 muxRoom, _, ⟨inBank, rfl⟩,
        rfl⟩

/-- Wiring faults only where memory cannot hold a number for every pin or multiplexer. -/
theorem resolve_eq_fault {fault : Fault} :
    resolve bank pins pairs = .error (.fault fault) ↔ (pairs.map Prod.fst).Nodup ∧
      (2 ^ 63 ≤ pins * numberBytes ∧ fault = .tooManyEntries pins ∨
        pins * numberBytes < 2 ^ 63 ∧ 2 ^ 63 ≤ bank.count * numberBytes ∧
          fault = .tooManyEntries bank.count) := by
  rw [← Ordered.repeated?_sort_eq_none]
  unfold resolve
  simp only
  split
  · next found => simp [found, refuse]
  · next none =>
    have ascending := Ordered.ascending_sort (Ordered.repeated?_sort_eq_none.1 none)
    have spared : tabulate (driverOf bank (Ordered.sort pairs)) 0 pins ≠ .error (.fault fault) :=
      fun failed => spares_drivers bank ascending pins _ failed ⟨fault, rfl⟩
    simp only [bind_eq_error, liftM_eq_fault, liftM_eq_ok, Checked.room_eq_error, spared, none,
      true_and, false_or]
    constructor
    · rintro (many | ⟨_, pinRoom, many | ⟨_, -, _, -, done⟩⟩)
      · exact .inl many
      · exact .inr ⟨Checked.room_eq_ok.1 pinRoom, many⟩
      · cases done
    · rintro (many | ⟨pinRoom, many⟩)
      · exact .inl many
      · exact .inr ⟨(), Checked.room_eq_ok.2 pinRoom, .inl many⟩

theorem drivers_of_resolve (resolved : resolve bank pins pairs = .ok w) :
    w.bank = bank ∧ w.drivers.length = pins ∧ ∀ mux ∈ w.drivers, mux < bank.count := by
  obtain ⟨-, -, -, inBank, rfl⟩ := resolve_eq_ok.1 resolved
  exact ⟨rfl, by simp, by simpa using inBank⟩

theorem pinCount_lt_of_resolve (resolved : resolve bank pins pairs = .ok w) :
    w.pinCount * 8 < 2 ^ 63 := by
  obtain ⟨-, room, -, -, rfl⟩ := resolve_eq_ok.1 resolved
  simpa [pinCount, numberBytes] using room

/-! ## Listed and unlisted pins -/

def Unlisted (pairs : List (Nat × Nat)) (pin : Nat) : Prop := pin ∉ pairs.map Prod.fst

instance : DecidablePred (Unlisted pairs) := fun pin =>
  inferInstanceAs (Decidable (pin ∉ pairs.map Prod.fst))

/-- The multiplexer that a pin is to have: the one that it is listed with or, if it is not listed, as
many as there are unlisted pins below it. -/
inductive Resolves (pairs : List (Nat × Nat)) (pin : Nat) : Nat → Prop where
  | listed {mux : Nat} (member : (pin, mux) ∈ pairs) : Resolves pairs pin mux
  | unlisted (free : Unlisted pairs pin) : Resolves pairs pin (Nat.count (Unlisted pairs) pin)

/-- Every pin below another one is listed or not. -/
theorem length_listed_add_count (once : (pairs.map Prod.fst).Nodup) (pin : Nat) :
    (pairs.filter fun p => p.1 < pin).length + Nat.count (Unlisted pairs) pin = pin := by
  have listed : (Finset.range pin).filter (· ∈ pairs.map Prod.fst) =
      ((pairs.filter fun p => p.1 < pin).map Prod.fst).toFinset := by
    ext q
    simp only [Finset.mem_filter, Finset.mem_range, List.mem_toFinset, List.mem_map,
      List.mem_filter, decide_eq_true_eq]
    constructor
    · rintro ⟨lt, p, member, rfl⟩
      exact ⟨p, ⟨member, lt⟩, rfl⟩
    · rintro ⟨p, ⟨member, lt⟩, rfl⟩
      exact ⟨lt, p, member, rfl⟩
  have different : ((pairs.filter fun p => p.1 < pin).map Prod.fst).Nodup :=
    (List.filter_sublist.map Prod.fst).nodup once
  calc (pairs.filter fun p => p.1 < pin).length + Nat.count (Unlisted pairs) pin
      = ((Finset.range pin).filter (· ∈ pairs.map Prod.fst)).card +
          ((Finset.range pin).filter (¬ · ∈ pairs.map Prod.fst)).card := by
        rw [listed, List.toFinset_card_of_nodup different, List.length_map,
          Nat.count_eq_card_filter_range]
        rfl
    _ = pin := by rw [Finset.card_filter_add_card_filter_not, Finset.card_range]

theorem resolves_iff (once : (pairs.map Prod.fst).Nodup) {pin mux : Nat} :
    Resolves pairs pin mux ↔ muxOf pairs pin = mux := by
  have found {mux : Nat} : pairs.lookup pin = some mux ↔ (pin, mux) ∈ pairs := lookup_eq_some once
  have below := length_listed_add_count once pin
  rw [muxOf]
  cases listed : pairs.lookup pin with
  | some other =>
    have member := found.1 listed
    constructor
    · intro resolves
      cases resolves with
      | listed same => exact Option.some.inj (listed.symm.trans (found.2 same))
      | unlisted free => exact absurd (List.mem_map_of_mem member) free
    · intro same
      exact .listed (same ▸ member)
  | none =>
    have free : Unlisted pairs pin := by
      intro listedToo
      obtain ⟨pair, member, rfl⟩ := List.mem_map.1 listedToo
      exact absurd (found.2 member) (by simp [listed])
    have count : pin - (pairs.filter fun p => p.1 < pin).length =
        Nat.count (Unlisted pairs) pin := by omega
    simp only [count]
    constructor
    · intro resolves
      cases resolves with
      | listed member => exact absurd (List.mem_map_of_mem member) free
      | unlisted _ => rfl
    · intro same
      exact same ▸ .unlisted free

theorem infinite_unlisted (pairs : List (Nat × Nat)) : (Set.ofPred (Unlisted pairs)).Infinite :=
  (pairs.map Prod.fst).finite_toSet.infinite_compl

theorem lookup_eq_ok (resolved : resolve bank pins pairs = .ok w) {pin mux : Nat} :
    w.lookup pin = .ok mux ↔ Resolves pairs pin mux := by
  obtain ⟨once, -, -, -, rfl⟩ := resolve_eq_ok.1 resolved
  rw [lookup, find_eq (Ordered.ascending_sort once), resolves_iff once, Except.ok.injEq,
    muxOf_perm (Ordered.perm_sort pairs).symm once]

theorem resolve_perm (perm : pairs.Perm pairs') :
    resolve bank pins pairs = resolve bank pins pairs' := by
  rw [resolve, resolve, Ordered.sort_eq_of_perm perm]

structure Wires (w : Wiring) (bank : MuxBank) (pins : Nat) (pairs : List (Nat × Nat)) : Prop where
  sameBank : w.bank = bank
  listed : ∀ pin mux, (pin, mux) ∈ pairs → w.lookup pin = .ok mux
  unlisted : ∀ pin, Unlisted pairs pin →
    w.lookup pin = .ok (Nat.count (Unlisted pairs) pin)
  /-- The unlisted pins get each multiplexer once. -/
  next : ∀ mux, ∃! pin, Unlisted pairs pin ∧ w.lookup pin = .ok mux
  /-- The unlisted pins get the multiplexers in ascending order. -/
  ascending : ∀ pin pin' mux mux', Unlisted pairs pin → Unlisted pairs pin' →
    w.lookup pin = .ok mux → w.lookup pin' = .ok mux' → pin < pin' → mux < mux'
  pinCount : w.pinCount = pins
  drivers : ∀ pin < pins, ∃ mux, w.drivers[pin]? = some mux ∧ w.lookup pin = .ok mux
  fanOut : ∀ mux < bank.count, w.fanOut mux =
    .ok ((Finset.range pins).filter fun pin => w.drivers[pin]? = some mux).card

theorem wires_of_resolve (resolved : resolve bank pins pairs = .ok w) : w.Wires bank pins pairs := by
  obtain ⟨once, -, -, -, same⟩ := resolve_eq_ok.1 resolved
  have found {pin mux : Nat} : w.lookup pin = .ok mux ↔ Resolves pairs pin mux :=
    lookup_eq_ok resolved
  have count : ∀ pin, Unlisted pairs pin → ∀ mux,
      w.lookup pin = .ok mux ↔ Nat.count (Unlisted pairs) pin = mux := by
    intro pin free mux
    rw [found, resolves_iff once, ← (resolves_iff once).1 (.unlisted free)]
  have bank : w.bank = bank := congrArg Wiring.bank same
  have drivers : w.drivers = (List.range pins).map (muxOf pairs) := congrArg Wiring.drivers same
  have pinCount : w.pinCount = pins := by simp [Wiring.pinCount, drivers]
  refine
    { sameBank := bank
      listed := fun pin mux member => found.2 (.listed member)
      unlisted := fun pin free => found.2 (.unlisted free)
      next := fun mux => ?_
      ascending := fun pin pin' mux mux' free free' here there less => ?_
      pinCount := pinCount
      drivers := fun pin lt => ?_
      fanOut := fun mux lt => ?_ }
  · have free := Nat.nth_mem_of_infinite (infinite_unlisted pairs) mux
    have here := Nat.count_nth_of_infinite (infinite_unlisted pairs) mux
    refine ⟨_, ⟨free, (count _ free mux).2 here⟩, fun pin other => ?_⟩
    exact Nat.count_injective other.1 free (((count pin other.1 mux).1 other.2).trans here.symm)
  · rw [count pin free] at here
    rw [count pin' free'] at there
    rw [← here, ← there]
    exact Nat.count_strict_mono free less
  · exact ⟨muxOf pairs pin, by simp [drivers, lt], found.2 ((resolves_iff once).2 rfl)⟩
  · rw [fanOut, bank, if_pos lt, counts, find?_tally, count_drivers, drives, pinCount]

/-- The pins can be wired exactly if none is listed twice, each gets a multiplexer of the bank, and
memory can hold a number for every pin and every multiplexer. What they are wired to, and why they
cannot be wired, is the same for every order of the list. -/
theorem resolve_wires (bank : MuxBank) (pins : Nat) (pairs : List (Nat × Nat)) :
    ((∃ w, resolve bank pins pairs = .ok w) ↔ (pairs.map Prod.fst).Nodup ∧
      (∀ pin < pins, ∃ mux < bank.count, Resolves pairs pin mux) ∧
      pins * numberBytes < 2 ^ 63 ∧ bank.count * numberBytes < 2 ^ 63) ∧
    (∀ w, resolve bank pins pairs = .ok w → w.Wires bank pins pairs) ∧
    ∀ pairs', pairs.Perm pairs' → resolve bank pins pairs' = resolve bank pins pairs := by
  refine ⟨⟨?_, ?_⟩, fun w => wires_of_resolve, fun pairs' perm => (resolve_perm perm).symm⟩
  · intro ⟨w, resolved⟩
    obtain ⟨once, pinRoom, muxRoom, inBank, -⟩ := resolve_eq_ok.1 resolved
    exact ⟨once, fun pin lt => ⟨_, inBank pin lt, (resolves_iff once).2 rfl⟩, pinRoom, muxRoom⟩
  · intro ⟨once, inBank, pinRoom, muxRoom⟩
    refine ⟨_, resolve_eq_ok.2 ⟨once, pinRoom, muxRoom, fun pin lt => ?_, rfl⟩⟩
    obtain ⟨mux, lt, resolves⟩ := inBank pin lt
    exact (resolves_iff once).1 resolves ▸ lt

/-- Seven multiplexers for fourteen pins, seven of which are listed, in two orders. Pin 5 is the
fifth one that is not listed. -/
theorem resolve_wires_sevenShared :
    ∃ w, resolve ⟨4, 7⟩ 14 [(13, 6), (4, 3), (8, 0), (10, 2), (9, 1), (11, 3), (12, 5)] = .ok w ∧
      resolve ⟨4, 7⟩ 14 [(4, 3), (8, 0), (9, 1), (10, 2), (11, 3), (12, 5), (13, 6)] = .ok w ∧
      w.lookup 11 = .ok 3 ∧ w.lookup 5 = .ok 4 ∧ w.lookup 20 = .ok 13 ∧ w.fanOut 3 = .ok 3 := by
  obtain ⟨-, wires, perm⟩ :=
    resolve_wires ⟨4, 7⟩ 14 [(13, 6), (4, 3), (8, 0), (10, 2), (9, 1), (11, 3), (12, 5)]
  obtain ⟨w, resolved⟩ :
    ∃ w, resolve ⟨4, 7⟩ 14 [(13, 6), (4, 3), (8, 0), (10, 2), (9, 1), (11, 3), (12, 5)] = .ok w :=
    ⟨_, rfl⟩
  have known := wires w resolved
  refine ⟨w, resolved, (perm _ (by decide)).trans resolved, known.listed 11 3 (by decide),
    known.unlisted 5 (by decide), known.unlisted 20 (by decide), ?_⟩
  rw [known.fanOut 3 (by decide)]
  cases resolved
  decide

/-- No memory can hold a number for each of `2 ^ 60` multiplexers, although no pin asks for one. -/
theorem resolve_faults_largeBank :
    resolve ⟨1, 2 ^ 60⟩ 0 [] = .error (.fault (.tooManyEntries (2 ^ 60))) ∧
      ¬ ((∃ w, resolve ⟨1, 2 ^ 60⟩ 0 [] = .ok w) ↔
        (([] : List (Nat × Nat)).map Prod.fst).Nodup ∧
          ∀ pin < 0, ∃ mux < 2 ^ 60, Resolves [] pin mux) := by
  have faults : resolve ⟨1, 2 ^ 60⟩ 0 [] = .error (.fault (.tooManyEntries (2 ^ 60))) :=
    resolve_eq_fault.2 ⟨List.nodup_nil, .inr ⟨by decide, by decide, rfl⟩⟩
  refine ⟨faults, fun claimed => ?_⟩
  obtain ⟨w, resolved⟩ := claimed.2 ⟨List.nodup_nil, fun pin lt => absurd lt (Nat.not_lt_zero pin)⟩
  cases faults.symm.trans resolved

end Wiring

end FsmFabric
