import FsmFabric.Proofs.Chip.Resolve

/-!
# The multiplexer that serves a demand best

`bestFit` counts the demanded pins of every multiplexer and goes through the multiplexers once. It
stops at one that is perfect, and changes its mind only for a higher score. So it ends with the first
multiplexer of the highest score, and with none if no multiplexer drives a demanded pin.
-/

namespace FsmFabric.Wiring

variable {w : Wiring} {demand : Mask} {parties : Nat}

def demanded (w : Wiring) (demand : Mask) (mux : Nat) : Finset Nat :=
  (w.drives mux).filter fun pin => demand.get pin = true

/-- How well a multiplexer serves a demand of several parties. -/
def score (w : Wiring) (demand : Mask) (parties mux : Nat) : Nat :=
  let wanted := (w.demanded demand mux).card
  let fanOut := (w.drives mux).card
  if wanted = 0 then 0
  else if fanOut = wanted ∧ wanted = parties then 255
  else 1 + (if fanOut = wanted then 1 else 0) + (if wanted = parties then 1 else 0) +
    (if parties ≠ 1 ∧ wanted ≠ 1 then 1 else 0)

theorem mem_demanded {mux pin : Nat} :
    pin ∈ w.demanded demand mux ↔ w.drivers[pin]? = some mux ∧ demand.get pin = true := by
  rw [demanded, Finset.mem_filter, mem_drives]

theorem score_eq_zero {mux : Nat} :
    w.score demand parties mux = 0 ↔
      ∀ pin : Nat, w.drivers[pin]? = some mux → demand.get pin = false := by
  have empty : (w.demanded demand mux).card = 0 ↔
      ∀ pin : Nat, w.drivers[pin]? = some mux → demand.get pin = false := by
    simp only [Finset.card_eq_zero, Finset.eq_empty_iff_forall_notMem, mem_demanded, not_and,
      Bool.not_eq_true]
  rw [← empty, score]
  split
  · next zero => simp [zero]
  · next nonzero =>
    split
    · simp [nonzero]
    · simp only [nonzero, iff_false]
      omega

theorem score_le (w : Wiring) (demand : Mask) (parties mux : Nat) :
    w.score demand parties mux ≤ perfectScore := by
  rw [score, perfectScore]
  split_ifs <;> omega

/-! ## Counting -/

theorem find?_counts (w : Wiring) (mux : Nat) :
    (w.counts.find? mux).getD 0 = (w.drives mux).card := by
  rw [counts, find?_tally, count_drivers]

theorem find?_wanted (w : Wiring) (demand : Mask) (mux : Nat) :
    ((w.wanted demand).find? mux).getD 0 = (w.demanded demand mux).card := by
  have pins : w.demanded demand mux =
      (demand.ones.filter fun pin => w.drivers[pin]? == some mux).toFinset := by
    ext pin
    rw [mem_demanded, List.mem_toFinset, List.mem_filter, Mask.mem_ones, beq_iff_eq, and_comm]
  have once : (demand.ones.filter fun pin => w.drivers[pin]? == some mux).Nodup :=
    (demand.pairwise_ones.imp Nat.ne_of_lt).filter _
  rw [wanted, find?_tally, List.count_filterMap, List.countP_eq_length_filter, pins,
    List.toFinset_card_of_nodup once]

/-! ## The pass through the multiplexers -/

/-- The best of the first `k` multiplexers is the first one of the highest score. -/
structure Leads (score : Nat → Nat) (k : Nat) (best : Nat × Nat) : Prop where
  highest : ∀ mux < k, score mux ≤ best.2
  first : best.2 = 0 ∨
    best.1 < k ∧ score best.1 = best.2 ∧ ∀ mux < best.1, score mux < best.2

theorem Leads.next {score : Nat → Nat} {k : Nat} {best : Nat × Nat} (leads : Leads score k best) :
    Leads score (k + 1) (if best.2 < score k then (k, score k) else best) := by
  split
  · next higher =>
    refine ⟨fun mux lt => ?_, .inr ⟨Nat.lt_succ_self k, rfl, fun mux lt => ?_⟩⟩
    · rcases Nat.lt_succ_iff_lt_or_eq.1 lt with before | same
      · exact (leads.highest mux before).trans higher.le
      · exact same ▸ le_rfl
    · exact (leads.highest mux lt).trans_lt higher
  · next notHigher =>
    refine ⟨fun mux lt => ?_, leads.first.imp_right fun here => ⟨by omega, here.2⟩⟩
    rcases Nat.lt_succ_iff_lt_or_eq.1 lt with before | same
    · exact leads.highest mux before
    · exact same ▸ Nat.le_of_not_lt notHigher

/-- A perfect multiplexer is the best of all, if there was none before. -/
theorem Leads.perfect {k total : Nat} {best : Nat × Nat}
    (leads : Leads (w.score demand parties) k best) (ongoing : best.2 < perfectScore)
    (inside : k < total) (perfect : w.score demand parties k = perfectScore) :
    Leads (w.score demand parties) total (k, perfectScore) where
  highest mux _ := score_le w demand parties mux
  first := .inr ⟨inside, perfect, fun mux lt => (leads.highest mux lt).trans_lt ongoing⟩

theorem leads_bestFrom (w : Wiring) (demand : Mask) (parties left k : Nat) {best : Nat × Nat}
    (leads : Leads (w.score demand parties) k best) (ongoing : best.2 < perfectScore) :
    Leads (w.score demand parties) (k + left)
      (bestFrom w.counts (w.wanted demand) parties left k best) := by
  induction left generalizing k best with
  | zero => exact leads
  | succ left ih =>
    have next := leads.next
    rw [bestFrom, find?_counts, find?_wanted]
    by_cases idle : (w.demanded demand k).card = 0
    · have zero : w.score demand parties k = 0 := if_pos idle
      rw [zero, if_neg (Nat.not_lt_zero _)] at next
      rw [if_pos idle, Nat.add_comm left, ← Nat.add_assoc]
      exact ih (k + 1) next ongoing
    rw [if_neg idle]
    by_cases perfect : (w.drives k).card = (w.demanded demand k).card ∧
        (w.demanded demand k).card = parties
    · rw [if_pos perfect]
      exact leads.perfect ongoing (by omega) ((if_neg idle).trans (if_pos perfect))
    · have points : w.score demand parties k = _ := (if_neg idle).trans (if_neg perfect)
      have low : w.score demand parties k < perfectScore := by
        rw [points, perfectScore]
        split_ifs <;> omega
      rw [if_neg perfect]
      dsimp only
      rw [← points, Nat.add_comm left, ← Nat.add_assoc]
      refine ih (k + 1) next ?_
      split
      · exact low
      · exact ongoing

/-- The search ends with the first multiplexer of the highest score. -/
theorem leads_best (w : Wiring) (demand : Mask) (parties : Nat) :
    Leads (w.score demand parties) w.bank.count
      (bestFrom w.counts (w.wanted demand) parties w.bank.count 0 (0, 0)) := by
  have start : Leads (w.score demand parties) 0 (0, 0) :=
    ⟨fun mux lt => absurd lt (Nat.not_lt_zero mux), .inl rfl⟩
  simpa using leads_bestFrom w demand parties w.bank.count 0 start (by decide)

/-! ## The best fit -/

/-- The first of `count` multiplexers that have the highest score. -/
structure IsFirstBest (score : Nat → Nat) (count mux : Nat) : Prop where
  inBank : mux < count
  highest : ∀ other < count, score other ≤ score mux
  first : ∀ other < mux, score other < score mux

theorem bestFit_cases (w : Wiring) (demand : Mask) (parties : Nat) :
    (w.bestFit demand parties = none ∧ ∀ mux < w.bank.count, w.score demand parties mux = 0) ∨
      ∃ mux, w.bestFit demand parties = some (w.pinsOf mux) ∧ w.score demand parties mux ≠ 0 ∧
        IsFirstBest (w.score demand parties) w.bank.count mux := by
  obtain ⟨highest, first⟩ := w.leads_best demand parties
  rw [bestFit]
  generalize bestFrom w.counts (w.wanted demand) parties w.bank.count 0 (0, 0) = best at *
  obtain ⟨mux, top⟩ := best
  cases top with
  | zero => exact .inl ⟨rfl, fun mux lt => Nat.le_zero.1 (highest mux lt)⟩
  | succ top =>
    rcases first with zero | ⟨inBank, score, first⟩
    · cases zero
    dsimp only at score highest first
    exact .inr ⟨mux, rfl, score ▸ Nat.succ_ne_zero top, inBank, score ▸ highest, score ▸ first⟩

theorem exists_demanded {mux : Nat} (serves : w.score demand parties mux ≠ 0) :
    ∃ pin : Nat, w.drivers[pin]? = some mux ∧ demand.get pin = true := by
  by_contra absent
  refine serves (score_eq_zero.2 fun pin driven => ?_)
  exact Bool.eq_false_iff.2 fun demanded => absent ⟨pin, driven, demanded⟩

theorem exists_of_bestFit {pins : List Nat} (fit : w.bestFit demand parties = some pins) :
    ∃ (mux pin : Nat), pins = w.pinsOf mux ∧ demand.get pin = true ∧
      w.drivers[pin]? = some mux := by
  rcases w.bestFit_cases demand parties with ⟨unserved, -⟩ | ⟨mux, found, serves, -⟩
  · cases unserved.symm.trans fit
  · obtain ⟨pin, driven, demanded⟩ := exists_demanded serves
    exact ⟨mux, pin, Option.some.inj (fit.symm.trans found), demanded, driven⟩

/-- A demand is served by the first multiplexer of the highest score, with all its pins in ascending
order, and by none if it asks for no pin. -/
theorem bestFit_is_first_best {bank : MuxBank} {pins : Nat} {pairs : List (Nat × Nat)}
    (resolved : resolve bank pins pairs = .ok w) (demand : Mask) (parties : Nat) :
    (w.bestFit demand parties = none ↔ ∀ pin < pins, demand.get pin = false) ∧
    ((∃ pin < pins, demand.get pin = true) → ∃ mux served,
      w.bestFit demand parties = some served ∧
      IsFirstBest (w.score demand parties) bank.count mux ∧
      served.Pairwise (· < ·) ∧ (∀ pin, pin ∈ served ↔ w.drivers[pin]? = some mux) ∧
      ∃ pin ∈ served, demand.get pin = true) := by
  obtain ⟨sameBank, length, inBank⟩ := drivers_of_resolve resolved
  rw [← sameBank] at inBank ⊢
  rcases w.bestFit_cases demand parties with
    ⟨unserved, zero⟩ | ⟨mux, found, serves, first⟩
  · have silent : ∀ pin < pins, demand.get pin = false := by
      intro pin lt
      have driven := List.getElem?_eq_getElem (l := w.drivers) (lt.trans_eq length.symm)
      have served := inBank _ (List.getElem_mem (lt.trans_eq length.symm))
      exact score_eq_zero.1 (zero _ served) pin driven
    refine ⟨iff_of_true unserved silent, fun ⟨pin, lt, demanded⟩ => ?_⟩
    rw [silent pin lt] at demanded
    cases demanded
  · obtain ⟨pin, driven, demanded⟩ := exists_demanded serves
    have lt : pin < pins := length ▸ (List.getElem?_eq_some_iff.1 driven).1
    refine ⟨iff_of_false (by simp [found]) fun silent => ?_, fun _ => ?_⟩
    · rw [silent pin lt] at demanded
      cases demanded
    · exact ⟨mux, _, found, first, w.pairwise_pinsOf mux, fun _ => mem_pinsOf, pin,
        mem_pinsOf.2 driven, demanded⟩

/-- Two parties ask for the pins 3, 4 and 5. Multiplexer 4 drives only pin 5; multiplexer 3 serves
both parties, and pin 11 comes with it. -/
theorem bestFit_is_first_best_shared :
    ∃ w, resolve ⟨4, 7⟩ 14 [(4, 3), (8, 0), (9, 1), (10, 2), (11, 3), (12, 5), (13, 6)] = .ok w ∧
      (Mask.ofOnes 0 [3, 4, 5]).get 3 = true ∧
      w.bestFit (Mask.ofOnes 0 [3, 4, 5]) 2 = some [3, 4, 11] ∧
      IsFirstBest (w.score (Mask.ofOnes 0 [3, 4, 5]) 2) 7 3 := by
  have resolved :
      resolve ⟨4, 7⟩ 14 [(4, 3), (8, 0), (9, 1), (10, 2), (11, 3), (12, 5), (13, 6)] =
        .ok ⟨⟨4, 7⟩, [(4, 3), (8, 0), (9, 1), (10, 2), (11, 3), (12, 5), (13, 6)],
          [0, 1, 2, 3, 3, 4, 5, 6, 0, 1, 2, 3, 5, 6]⟩ := rfl
  have asked : (Mask.ofOnes 0 [3, 4, 5]).get 3 = true := by decide
  obtain ⟨mux, served, fit, first, -, pins, -⟩ :=
    (bestFit_is_first_best resolved (Mask.ofOnes 0 [3, 4, 5]) 2).2 ⟨3, by decide, asked⟩
  obtain rfl : served = [3, 4, 11] := Option.some.inj (fit.symm.trans (by decide +kernel))
  obtain rfl : 3 = mux := Option.some.inj ((pins 3).1 (by simp))
  exact ⟨_, resolved, asked, fit, first⟩

end FsmFabric.Wiring
