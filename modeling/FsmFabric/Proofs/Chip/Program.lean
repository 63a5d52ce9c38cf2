import FsmFabric.Proofs.Bits.Span
import FsmFabric.Proofs.Chip.Lut
import Mathlib.Data.List.TakeWhile

/-!
# Tables compute their conditions

Programming goes through all rows of a table. For each row it puts the digits of the row number at
the inputs that the pins observe, so pins that observe the same input overwrite each other, and pins
above the highest digit are not written at all. Where the pins of a row agree, the row still holds
the value of the condition.
-/

namespace FsmFabric

open Edit

namespace Lut

variable {t : Lut} {pins : Group} {input : Nat → Nat}

/-- Every pin observes an input at a position that has a successor in range. -/
def Observes (pins : Group) (input : Nat → Nat) : Prop :=
  ∀ p < pins.size, pins.entry p = .ok (input p) ∧ input p + 1 < Checked.limit

theorem extent_eq (few : pins.size < 64) : pins.extent = .ok pins.size :=
  Checked.within_eq_ok.2 ⟨few.trans (by decide), rfl⟩

theorem exists_rowInputs (observes : Observes pins input) (few : pins.size < 64) {row : Nat}
    (inside : row < 2 ^ pins.size) : ∃ inputs, rowInputs pins row = .ok inputs := by
  have write : ∀ p < pins.size, ∀ value, Upholds (fun r : Register => r.growable = true)
      (fun _ => True) (Region.write [.mapped pins] p value) := by
    intro p pin value r growable
    obtain ⟨entry, small⟩ := observes p pin
    have next : Checked.add (input p) 1 = .ok (input p + 1) := Checked.within_eq_ok.2 ⟨small, rfl⟩
    have located : r.locate [.mapped pins] p = .ok (input p) := by
      simp only [Register.locate, View.extent, View.below, extent_eq few, entry, next, liftM_ok,
        growable, bind, Except.bind, pure, Except.pure, if_pos pin, if_true]
    have written : Runs (Region.write [.mapped pins] p value) r () _ :=
      Region.runs_write.2 ⟨input p, located, rfl⟩
    refine ⟨fun x failed => ?_, fun a r' run => ?_⟩
    · rw [Fails, written] at failed
      cases failed
    · obtain ⟨_, -, rfl⟩ := Region.runs_write.1 run
      exact growable
  -- a row has no digit above its pins, so every digit finds a pin
  have all : Upholds (fun r : Register => r.growable = true) (fun _ => True)
      (Region.writeNat [.mapped pins] row) :=
    .forRange fun p _ digit => write p (by have := Region.digitCount_le inside; omega) _
  obtain ⟨a, r, run⟩ := all.exists_runs (s := ⟨true, Mask.empty⟩) rfl
  have written : (WordEdit.ofBits (Region.writeNat [.mapped pins] row)).outcome
      ⟨true, Mask.empty⟩ = (.ok a, r) := runs_mapError.2 run
  exact ⟨r.mask, by rw [rowInputs, written]⟩

def rowsOf (pins : Group) (condition : Expr) : List (Nat × Bool) :=
  (List.range (2 ^ pins.size)).map fun row => (row, rowValue pins condition row)

/-- Programming is writing all rows in order. -/
theorem program_eq (few : t.pins < 64) (covers : pins.size = t.pins)
    (observes : Observes pins input) (table : Region) (condition : Expr) :
    t.program table pins condition = WordEdit.ofBits (table.writeAll (rowsOf pins condition)) := by
  have rows : t.rows = .ok (2 ^ pins.size) := by
    rw [covers, ← Nat.one_shiftLeft]
    exact Checked.twoPow_eq_ok.2 ⟨few, rfl⟩
  rw [← covers] at few
  rw [program, extent_eq few, ofFault_ok_bind, if_neg fun differs => differs covers, rows,
    ofFault_ok_bind, forRange_eq_forM, ← List.range_eq_range', WordEdit.ofBits, Region.writeAll,
    mapError_forM, rowsOf, forM_map]
  refine forM_congr fun row member => ?_
  obtain ⟨inputs, found⟩ := exists_rowInputs observes few (List.mem_range.1 member)
  rw [found, rowValue, found]
  rfl

theorem map_fst_rowsOf (pins : Group) (condition : Expr) :
    (rowsOf pins condition).map Prod.fst = List.range (2 ^ pins.size) :=
  Mask.map_fst_assignments _ _

section Assigned

variable {condition : Expr} {m : Mask}

theorem assign_rowsOf_result (pins : Group) (condition : Expr) (m : Mask) :
    (m.assign (rowsOf pins condition)).1 = if 2 ^ pins.size ≤ m.size then .ok ()
      else .error (.refused (.outOfBounds m.size m.size)) := by
  rw [Mask.assign_result, rowsOf, List.find?_map]
  show (Option.map _ ((List.range (2 ^ pins.size)).find? fun row => decide (m.size ≤ row))).elim
    _ _ = _
  split
  · next enough =>
    have none : (List.range (2 ^ pins.size)).find? (fun row => decide (m.size ≤ row)) = none :=
      List.find?_eq_none.2 fun row member => by
        have := List.mem_range.1 member
        rw [decide_eq_true_eq]
        omega
    rw [none]
    rfl
  · next short =>
    have first : (List.range (2 ^ pins.size)).find? (fun row => decide (m.size ≤ row)) =
        some m.size :=
      List.find?_range_eq_some.2 ⟨decide_eq_true (Nat.le_refl _), List.mem_range.2 (by omega),
        fun row lt => by
          rw [Bool.not_eq_true', decide_eq_false_iff_not]
          omega⟩
    rw [first]
    rfl

theorem get_assign_rowsOf (enough : 2 ^ pins.size ≤ m.size) {row : Nat}
    (inside : row < 2 ^ pins.size) :
    (m.assign (rowsOf pins condition)).2.get row = rowValue pins condition row := by
  have all : (rowsOf pins condition).takeWhile (fun a => decide (a.1 < m.size)) =
      rowsOf pins condition := by
    refine List.takeWhile_eq_self_iff.2 fun a member => ?_
    have listed := List.mem_map_of_mem (f := Prod.fst) member
    rw [map_fst_rowsOf, List.mem_range] at listed
    exact decide_eq_true (by omega)
  refine m.get_assign_of_mem (a := (row, rowValue pins condition row)) ?_ ?_
  · rw [map_fst_rowsOf]
    exact List.nodup_range
  · rw [all]
    exact List.mem_map_of_mem (List.mem_range.2 inside)

theorem get_assign_rowsOf_above {i : Nat} (above : 2 ^ pins.size ≤ i) :
    (m.assign (rowsOf pins condition)).2.get i = m.get i := by
  refine m.get_assign_of_forall_ne fun a member same => ?_
  have listed := List.mem_map_of_mem (f := Prod.fst) (List.takeWhile_subset _ member)
  rw [map_fst_rowsOf, List.mem_range] at listed
  omega

end Assigned

/-- Whatever values the inputs have, some row has them at its pins. -/
theorem exists_row (count : Nat) (x : Nat → Bool) :
    ∃ row < 2 ^ count, ∀ p < count, row.testBit p = x p := by
  refine ⟨Mask.valueOf ((List.range count).map x), ?_, fun p pin => ?_⟩
  · simpa using Mask.valueOf_lt ((List.range count).map x)
  · rw [Mask.testBit_valueOf]
    simp [pin]

/-- A table that is programmed with a condition on the inputs of its pins has in every row the value
of the condition for all inputs that the row can stand for, and keeps the bits behind its rows.
Programming is refused exactly if the table is too small for the rows. -/
theorem program_computes {support m : Mask} {condition : Expr} {table : Region}
    {total start size : Nat} (few : t.pins < 64) (covers : pins.size = t.pins)
    (observes : Observes pins input) (reads : condition.support = .ok support)
    (wired : ∀ i, support.get i = true → ∃ p < t.pins, input p = i)
    (spans : table.Spans total start size) (sized : m.size = total) :
    ∃ result contents, (t.program table pins condition).outcome ⟨false, m⟩ =
        (result, ⟨false, m.splice start contents⟩) ∧
      contents.size = size ∧
      result = (if 2 ^ t.pins ≤ size then .ok ()
        else .error (.refused (Error.ofBits (.outOfBounds size size)))) ∧
      (result = .ok () → ∀ x : Nat → Bool, ∃ row < 2 ^ t.pins,
        (∀ p < t.pins, row.testBit p = x (input p)) ∧ contents.get row = condition.holds x) ∧
      ∀ i, 2 ^ t.pins ≤ i → contents.get i = (m.extract start size).get i := by
  rw [program_eq few covers observes, WordEdit.ofBits, outcome_mapError,
    spans.outcome_writeAll sized]
  have result := assign_rowsOf_result pins condition (m.extract start size)
  rw [Mask.size_extract] at result
  refine ⟨_, _, rfl, by simp, ?_, fun succeeded x => ?_, fun i above => ?_⟩
  · rw [result, ← covers]
    split <;> rfl
  · have enough : 2 ^ pins.size ≤ size := by
      by_contra short
      rw [result, if_neg short] at succeeded
      cases succeeded
    obtain ⟨row, inside, digits⟩ := exists_row t.pins fun p => x (input p)
    refine ⟨row, inside, digits, ?_⟩
    rw [← covers] at few inside digits
    obtain ⟨inputs, found⟩ := exists_rowInputs observes few inside
    rw [get_assign_rowsOf (by rwa [Mask.size_extract]) inside, rowValue, found]
    refine holds_rowInputs found (fun p pin => (observes p pin).1) digits fun i member => ?_
    rw [covers]
    exact wired i ((Expr.get_support reads i).2 member)
  · exact get_assign_rowsOf_above (by rwa [covers])

/-- Both pins observe input 3, so only the first and the last row stand for inputs. -/
theorem program_computes_twice :
    ∃ result contents, ((⟨0, 2⟩ : Lut).program [] (.table [3, 3]) (.inputs [3])).outcome
        ⟨false, Mask.blank 5⟩ = (result, ⟨false, (Mask.blank 5).splice 0 contents⟩) ∧
      contents.size = 5 ∧
      result = (if 2 ^ 2 ≤ 5 then .ok ()
        else .error (.refused (Error.ofBits (.outOfBounds 5 5)))) ∧
      (result = .ok () → ∀ x : Nat → Bool, ∃ row < 2 ^ 2,
        (∀ p < 2, row.testBit p = x 3) ∧ contents.get row = (Expr.inputs [3]).holds x) ∧
      ∀ i, 2 ^ 2 ≤ i → contents.get i = ((Mask.blank 5).extract 0 5).get i :=
  program_computes (t := ⟨0, 2⟩) (by decide) rfl
    (fun p pin => by
      have : p = 0 ∨ p = 1 := by
        have : p < 2 := pin
        omega
      rcases this with rfl | rfl <;> exact ⟨rfl, by decide⟩)
    rfl (fun i set => ⟨0, by decide, by
      have single : (Expr.inputs [3]).support = .ok _ := rfl
      simpa [Expr.reads, eq_comm] using (Expr.get_support single i).1 set⟩)
    (Region.spans_nil 5) (by decide)

/-- The last position has no successor, so no mask of inputs reaches it. A pin that observes it
cannot be driven, although the condition does not depend on it and the table has all rows. -/
theorem program_faults_at_last_position :
    (Group.table [0, 18446744073709551615]).size = 2 ∧
    (∀ i ∈ (Expr.inputs [0]).reads,
      ∃ p < 2, (Group.table [0, 18446744073709551615]).entry p = .ok i) ∧
    2 ^ 2 ≤ (Mask.blank 4).size ∧
    (((⟨0, 2⟩ : Lut).program [] (.table [0, 18446744073709551615]) (.inputs [0])).outcome
      ⟨false, Mask.blank 4⟩).1 = .error (.fault .range) := by
  refine ⟨rfl, fun i member => ⟨0, by decide, ?_⟩, by decide, rfl⟩
  rw [List.mem_singleton.1 member]
  rfl

end Lut

end FsmFabric
