import FsmFabric.Mask.Hex
import FsmFabric.Proofs.Bits.Span
import FsmFabric.Proofs.Reading

/-!
# The number in a mask

A run of bits is a number, and runs of equal width that follow each other are its digits. So the
digits of a mask write the number in all of its bits, and this number gives the mask back.
-/

namespace FsmFabric.Mask

open Reading

theorem testBit_valueAt (m : Mask) (offset width i : Nat) :
    (m.valueAt offset width).testBit i = (decide (i < width) && m.get (offset + i)) := by
  rw [valueAt, testBit_valueOf]
  by_cases inside : i < width <;> simp [inside]

/-- Bits past the end do not count. -/
theorem valueAt_min (m : Mask) (offset width : Nat) :
    m.valueAt offset (min (m.size - offset) width) = m.valueAt offset width := by
  refine Nat.eq_of_testBit_eq fun i => ?_
  rw [testBit_valueAt, testBit_valueAt]
  by_cases inside : offset + i < m.size
  · have same : i < min (m.size - offset) width ↔ i < width := by omega
    simp [same]
  · simp [m.get_of_size_le (Nat.le_of_not_lt inside)]

/-- The numbers in four bits each, the most significant first. -/
def nibbleValues (m : Mask) : List Nat :=
  (List.range ((m.size + 3) / 4)).map fun k => m.nibble (4 * ((m.size + 3) / 4 - 1 - k))

theorem map_nibbleValues (m : Mask) : m.nibbleValues.map Nat.digitChar = m.nibbles := by
  rw [nibbleValues, nibbles, List.range_eq_range', List.reverse_range', List.map_map, List.map_map,
    Nat.zero_add, ← List.range_eq_range']
  rfl

theorem hex_eq (m : Mask) :
    (if m.nibbleValues.isEmpty then "0" else String.ofList (m.nibbleValues.map Nat.digitChar)) =
      m.hex := by
  rw [hex, ← map_nibbleValues]
  cases m.nibbleValues <;> rfl

theorem toList_hex {m : Mask} (nonempty : 0 < m.size) : m.hex.toList = m.nibbles := by
  have some : m.nibbles ≠ [] := by
    rw [nibbles, Ne, List.map_eq_nil_iff, List.reverse_eq_nil_iff, List.range_eq_nil]
    omega
  rw [hex]
  split
  · next none => exact absurd none some
  · exact String.toList_ofList

end FsmFabric.Mask

/-! ## Bits as text -/

namespace FsmFabric.Bits

variable {b : Bits} {m : Mask}

theorem Shows.nibble (shows : b.Shows m) {i : Nat} (small : i + 4 < Checked.limit) :
    b.nibble i = .ok (m.nibble i) := by
  have stop : Checked.add i 4 = .ok (i + 4) := Checked.within_eq_ok.2 ⟨small, rfl⟩
  have width : min (i + 4) m.size - i = min (m.size - i) 4 := by omega
  have run := shows.run (show i + (min (i + 4) m.size - i) ≤ Checked.limit by omega)
  refine bind_eq_ok.2 ⟨_, stop, bind_eq_ok.2 ⟨_, shows.size, bind_eq_ok.2 ⟨_, run, ?_⟩⟩⟩
  rw [width]
  exact congrArg Except.ok (m.valueAt_min i 4)

/-- Bits that show a mask are printed as the mask is, if there is room for their number and three
more. -/
theorem Shows.hex (shows : b.Shows m) (small : m.size + 3 < Checked.limit) (sized : Bool) :
    b.hex sized = .ok (if sized then m.text else m.hex) := by
  have padded : Checked.add m.size 3 = .ok (m.size + 3) := Checked.within_eq_ok.2 ⟨small, rfl⟩
  have read : tabulate (fun k => b.nibble (4 * ((m.size + 3) / 4 - 1 - k))) 0 ((m.size + 3) / 4) =
      .ok m.nibbleValues := tabulate_eq_ok fun k lt => shows.nibble (by omega)
  refine bind_eq_ok.2 ⟨_, shows.size, bind_eq_ok.2 ⟨_, padded, bind_eq_ok.2 ⟨_, read, ?_⟩⟩⟩
  rw [m.hex_eq]
  cases sized with
  | true => rfl
  | false => exact congrArg Except.ok String.empty_append

end FsmFabric.Bits
