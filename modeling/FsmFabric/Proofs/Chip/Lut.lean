import FsmFabric.Chip.Lut
import FsmFabric.Proofs.Bits
import FsmFabric.Proofs.Expr.Reads

/-!
# What a programmed table holds

Row `row` of a programmed table holds the value of the condition for the inputs that the row stands
for: the input that pin `p` observes has the value of digit `p` of the row.
-/

namespace FsmFabric

open Edit

theorem Register.locate_mapped {r : Register} {group : Group} {i position : Nat} {below : Region}
    (found : r.locate (.mapped group :: below) i = .ok position) :
    i < group.size ∧ ∃ entry, group.entry i = .ok entry ∧ r.locate below entry = .ok position := by
  simp only [locate, View.extent, View.below, bind_eq_ok, liftM_eq_ok] at found
  obtain ⟨size, extent, found⟩ := found
  obtain ⟨-, rfl⟩ := Checked.within_eq_ok.1 extent
  split at found
  · next inside =>
    obtain ⟨entry, here, deeper⟩ := bind_eq_ok.1 found
    exact ⟨inside, entry, liftM_eq_ok.1 here, deeper⟩
  · cases found

namespace Lut

/-- The inputs of a row have the values that its digits give them, where these agree. -/
theorem get_rowInputs {observed : Group} {row : Nat} {inputs : Mask} {input : Nat → Nat}
    {x : Nat → Bool} (found : rowInputs observed row = .ok inputs)
    (entries : ∀ p, p < observed.size → observed.entry p = .ok (input p))
    (digits : ∀ p, p < observed.size → row.testBit p = x (input p)) {p : Nat}
    (pin : p < observed.size) : inputs.get (input p) = x (input p) := by
  -- the row is written into the mask of inputs digit by digit
  obtain ⟨r, written, rfl⟩ : ∃ r, Runs (Region.writeNat [.mapped observed] row)
      ⟨true, Mask.empty⟩ () r ∧ r.mask = inputs := by
    unfold rowInputs at found
    split at found
    · next r outcome => exact ⟨r, runs_mapError.1 outcome, Except.ok.inj found⟩
    · cases found
  have invariant := written.forRange (fun k q => q.growable = true ∧
      (∀ i, q.mask.get i = true → x i = true) ∧
      ∀ p, p < k → p < observed.size → q.mask.get (input p) = x (input p))
    ⟨rfl, fun i set => by simp [Mask.empty] at set, fun p lt => absurd lt (Nat.not_lt_zero p)⟩ ?_
  · obtain ⟨-, sound, done⟩ := invariant
    rw [Nat.zero_add] at done
    by_cases early : p < Region.digitCount row
    · exact done p early pin
    · have zero := digits p pin
      rw [Region.testBit_of_digitCount_le (Nat.le_of_not_lt early)] at zero
      rw [← zero, ← Bool.not_eq_true]
      intro set
      rw [sound _ set] at zero
      cases zero
  · rintro k q q' - - ⟨growable, sound, done⟩ pass
    obtain ⟨position, located, rfl⟩ := Region.runs_write.1 pass
    obtain ⟨inside, entry, here, deeper⟩ := Register.locate_mapped located
    obtain rfl := Register.locate_growable growable deeper
    obtain rfl := Except.ok.inj ((entries k inside).symm.trans here)
    refine ⟨growable, fun i set => ?_, fun p lt pin => ?_⟩
    · simp only [Mask.get_put] at set
      split at set
      · next same => rw [same, ← digits k inside, set]
      · exact sound i set
    · simp only [Mask.get_put]
      split
      · next same => rw [same, digits k inside]
      · next differs => exact done p (by grind) pin

/-- In a row that stands for some inputs, a condition on observed inputs has its value for them. -/
theorem holds_rowInputs {observed : Group} {row : Nat} {inputs : Mask} {input : Nat → Nat}
    {x : Nat → Bool} {condition : Expr} (found : rowInputs observed row = .ok inputs)
    (entries : ∀ p, p < observed.size → observed.entry p = .ok (input p))
    (digits : ∀ p, p < observed.size → row.testBit p = x (input p))
    (observes : ∀ i ∈ condition.reads, ∃ p, p < observed.size ∧ input p = i) :
    condition.holds inputs.get = condition.holds x := by
  refine Expr.holds_congr fun i member => ?_
  obtain ⟨p, pin, rfl⟩ := observes i member
  exact get_rowInputs found entries digits pin

def rowValue (observed : Group) (condition : Expr) (row : Nat) : Bool :=
  match rowInputs observed row with
  | .ok inputs => condition.holds inputs.get
  | .error _ => false

theorem patched_of_program {t : Lut} {below : Region} {start offset size : Nat} {observed : Group}
    {condition : Expr} {r r' : Register} {a : Unit} (starts : below.Starts start)
    (fixed : r.growable = false)
    (run : Runs (t.program (.window offset size :: below) observed condition) r a r') :
    observed.size = t.pins ∧ 2 ^ t.pins ≤ size ∧
      r.Patched (start + offset) (2 ^ t.pins) (rowValue observed condition) r' ∧
      ∀ row, row < 2 ^ t.pins → ∃ inputs, rowInputs observed row = .ok inputs := by
  unfold program at run
  obtain ⟨pins, extent, run⟩ := runs_ofFault_bind.1 run
  obtain ⟨-, rfl⟩ := Checked.within_eq_ok.1 extent
  split at run
  · exact absurd (runs_ofFault.1 run).1 nofun
  · next same =>
    obtain ⟨rows, count, run⟩ := runs_ofFault_bind.1 run
    obtain ⟨-, rfl⟩ := Checked.twoPow_eq_ok.1 count
    rw [Nat.one_shiftLeft] at run
    have pass {row : Nat} {q q' : Register}
        (done : Runs (do
          let inputs ← WordEdit.ofResult (rowInputs observed row)
          WordEdit.ofBits (Region.write (.window offset size :: below) row
            (condition.holds inputs.get))) q () q') :
        ∃ inputs, rowInputs observed row = .ok inputs ∧
          Runs (Region.write (.window offset size :: below) row (condition.holds inputs.get))
            q () q' := by
      obtain ⟨inputs, found, done⟩ := runs_ofExcept_bind.1 done
      exact ⟨inputs, found, runs_mapError.1 done⟩
    have loop : 2 ^ t.pins ≤ size ∧
        r.Patched (start + offset) (2 ^ t.pins) (rowValue observed condition) r' := by
      refine Region.patched_of_loop fixed run fun row q q' _ fixed done => ?_
      obtain ⟨inputs, found, done⟩ := pass done
      refine ⟨Region.lt_of_write done, ?_⟩
      rw [rowValue, found]
      exact Region.patched_of_write (starts.window offset size) fixed done
    refine ⟨not_not.1 same, loop.1, loop.2, ?_⟩
    have all := run.forRange
      (fun k _ => ∀ row, row < k → ∃ inputs, rowInputs observed row = .ok inputs)
      (fun row lt => absurd lt (Nat.not_lt_zero row)) fun k q q' _ _ before done row lt => ?_
    · rwa [Nat.zero_add] at all
    · rcases Nat.lt_succ_iff_lt_or_eq.1 lt with earlier | rfl
      · exact before row earlier
      · obtain ⟨inputs, found, -⟩ := pass done
        exact ⟨inputs, found⟩

end Lut

end FsmFabric
