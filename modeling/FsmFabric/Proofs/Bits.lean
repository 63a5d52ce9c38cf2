import FsmFabric.Bits.Edit
import FsmFabric.Proofs.Edit
import FsmFabric.Proofs.Mask
import Mathlib.Algebra.Ring.Nat

/-!
# What writes do to a register

A write through windows goes to a position that is the sum of their offsets. A run of writes to a
register replaces a run of its bits and leaves the others, and its size, as they were.
-/

namespace FsmFabric

open Edit

namespace Register

theorem locate_fixed {r : Register} (fixed : r.growable = false) {i position : Nat} :
    r.locate [] i = .ok position ↔ i < r.mask.size ∧ i = position := by
  simp only [locate, fixed, Bool.false_eq_true, if_false]
  split <;> simp [*]

theorem locate_growable_iff {r : Register} (growable : r.growable = true) {i position : Nat} :
    r.locate [] i = .ok position ↔ i + 1 < Checked.limit ∧ i = position := by
  simp only [locate, growable, if_true, bind_eq_ok, pure_eq_ok, liftM_eq_ok, Checked.add,
    Checked.within_eq_ok]
  exact ⟨fun ⟨_, ⟨small, _⟩, same⟩ => ⟨small, same⟩, fun ⟨small, same⟩ => ⟨_, ⟨small, rfl⟩, same⟩⟩

theorem locate_growable {r : Register} (growable : r.growable = true) {i position : Nat}
    (found : r.locate [] i = .ok position) : position = i :=
  ((locate_growable_iff growable).1 found).2.symm

theorem locate_window {r : Register} {offset size i position : Nat} {below : Region} :
    r.locate (.window offset size :: below) i = .ok position ↔
      i < size ∧ offset + i < Checked.limit ∧ r.locate below (offset + i) = .ok position := by
  simp only [locate, View.extent, View.below, liftM_ok, bind_eq_ok, Except.ok.injEq, exists_eq_left']
  split
  · next inside =>
    simp only [bind_eq_ok, liftM_eq_ok, Checked.add, Checked.within_eq_ok, inside, true_and]
    constructor
    · rintro ⟨_, ⟨small, rfl⟩, found⟩
      exact ⟨small, found⟩
    · rintro ⟨small, found⟩
      exact ⟨_, ⟨small, rfl⟩, found⟩
  · next outside => simp [outside]

/-- The register with `count` bits from `start` on replaced. -/
structure Patched (r : Register) (start count : Nat) (value : Nat → Bool) (r' : Register) :
    Prop where
  growable : r'.growable = r.growable
  size : r'.mask.size = r.mask.size
  inside : ∀ i, i < count → r'.mask.get (start + i) = value i
  outside : ∀ i, i < start ∨ start + count ≤ i → r'.mask.get i = r.mask.get i

theorem Patched.refl (r : Register) (start : Nat) (value : Nat → Bool) :
    r.Patched start 0 value r where
  growable := rfl
  size := rfl
  inside i lt := absurd lt (Nat.not_lt_zero i)
  outside _ _ := rfl

theorem Patched.snoc {r r' r'' : Register} {start count : Nat} {value : Nat → Bool}
    (before : r.Patched start count value r')
    (last : r'.Patched (start + count) 1 (fun _ => value count) r'') :
    r.Patched start (count + 1) value r'' where
  growable := last.growable.trans before.growable
  size := last.size.trans before.size
  inside i lt := by
    by_cases new : i = count
    · subst new
      exact last.inside 0 Nat.one_pos
    · rw [last.outside _ (by omega), before.inside i (by omega)]
  outside i apart := by rw [last.outside i (by omega), before.outside i (by omega)]

theorem patched_put {r : Register} {position : Nat} (inside : position < r.mask.size)
    (value : Bool) :
    r.Patched position 1 (fun _ => value) { r with mask := r.mask.put position value } where
  growable := rfl
  size := by
    simp only [Mask.size_put]
    omega
  inside i lt := by
    obtain rfl : i = 0 := by omega
    simp [Mask.get_put]
  outside i apart := by
    simp only [Mask.get_put]
    rw [if_neg (by omega)]

end Register

namespace Region

open Register

variable {r r' : Register}

theorem runs_write {region : Region} {i : Nat} {value : Bool} {a : Unit} :
    Runs (region.write i value) r a r' ↔
      ∃ position, r.locate region i = .ok position ∧
        { r with mask := r.mask.put position value } = r' := by
  unfold Runs outcome write
  cases found : r.locate region i with
  | ok position => simp [ExceptT.run, ExceptT.mk, found]
  | error failure => simp [ExceptT.run, ExceptT.mk, found]

/-- A write puts one bit at the position where it is located, or it is refused. -/
theorem maintains_of_put {inv : Register → Prop} {region : Region} {i : Nat} {value : Bool}
    (kept : ∀ r position, inv r → r.locate region i = .ok position →
      inv { r with mask := r.mask.put position value }) : Maintains inv (region.write i value) := by
  intro r holds
  cases located : r.locate region i with
  | error failure =>
    have refused : ((region.write i value).outcome r).2 = r := by
      simp [outcome, write, ExceptT.run, ExceptT.mk, located]
    rwa [refused]
  | ok position =>
    have run : Runs (region.write i value) r () { r with mask := r.mask.put position value } :=
      runs_write.2 ⟨position, located, rfl⟩
    rw [run]
    exact kept r position holds located

/-- Bit 0 of a region lies at a position, and the others follow. -/
def Starts (region : Region) (start : Nat) : Prop :=
  ∀ r : Register, r.growable = false → ∀ i position, r.locate region i = .ok position →
    position = start + i ∧ position < r.mask.size

theorem starts_nil : Starts [] 0 := by
  intro r fixed i position found
  obtain ⟨inside, rfl⟩ := (locate_fixed fixed).1 found
  exact ⟨(Nat.zero_add i).symm, inside⟩

theorem Starts.window {below : Region} {start : Nat} (starts : Starts below start)
    (offset size : Nat) : Starts (.window offset size :: below) (start + offset) := by
  intro r fixed i position found
  obtain ⟨-, -, deeper⟩ := locate_window.1 found
  obtain ⟨same, inside⟩ := starts r fixed _ _ deeper
  exact ⟨by omega, inside⟩

theorem patched_of_write {region : Region} {start i : Nat} {value : Bool} {a : Unit}
    (starts : region.Starts start) (fixed : r.growable = false)
    (run : Runs (region.write i value) r a r') :
    r.Patched (start + i) 1 (fun _ => value) r' := by
  obtain ⟨position, found, rfl⟩ := runs_write.1 run
  obtain ⟨rfl, inside⟩ := starts r fixed i position found
  exact patched_put inside value

theorem lt_of_write {below : Region} {offset size i : Nat} {value : Bool} {a : Unit}
    (run : Runs (Region.write (.window offset size :: below) i value) r a r') : i < size := by
  obtain ⟨position, found, -⟩ := runs_write.1 run
  exact (locate_window.1 found).1

/-- A loop whose passes write one bit after the other. -/
theorem patched_of_loop {ε : Type} {act : Nat → Edit Register ε Unit} {start count size : Nat}
    {value : Nat → Bool} {a : Unit} (fixed : r.growable = false)
    (run : Runs (forRange 0 count act) r a r')
    (pass : ∀ i q q', i < count → q.growable = false → Runs (act i) q () q' →
      i < size ∧ q.Patched (start + i) 1 (fun _ => value i) q') :
    count ≤ size ∧ r.Patched start count value r' := by
  have result := run.forRange (fun i q => i ≤ size ∧ r.Patched start i value q)
    ⟨Nat.zero_le _, .refl r start value⟩ fun i q q' _ lt before done => ?_
  · rwa [Nat.zero_add] at result
  · obtain ⟨inside, last⟩ :=
      pass i q q' (by omega) (before.2.growable.trans fixed) done
    exact ⟨inside, before.2.snoc last⟩

/-! ## Numbers -/

theorem lt_two_pow_digitCount (value : Nat) : value < 2 ^ digitCount value := by
  unfold digitCount
  split
  · next zero => simp [zero]
  · exact Nat.lt_log2_self

theorem lt_two_pow_of_digitCount_le {value width : Nat} (le : digitCount value ≤ width) :
    value < 2 ^ width :=
  (lt_two_pow_digitCount value).trans_le (Nat.pow_le_pow_right Nat.two_pos le)

theorem digitCount_le {value width : Nat} (small : value < 2 ^ width) :
    digitCount value ≤ width := by
  unfold digitCount
  split
  · exact Nat.zero_le _
  · next nonzero => exact (Nat.log2_lt nonzero).2 small

theorem testBit_of_digitCount_le {value i : Nat} (le : digitCount value ≤ i) :
    value.testBit i = false :=
  Nat.testBit_lt_two_pow (lt_two_pow_of_digitCount_le le)

/-- A number written into a window lies there, if there was nothing before. -/
theorem patched_of_writeNat {below : Region} {start offset size value : Nat} {a : Unit}
    (starts : below.Starts start) (fixed : r.growable = false)
    (run : Runs (Region.writeNat (.window offset size :: below) value) r a r') :
    digitCount value ≤ size ∧
      r.Patched (start + offset) (digitCount value) value.testBit r' := by
  refine patched_of_loop fixed run fun i q q' _ fixed done => ?_
  exact ⟨lt_of_write done, patched_of_write (starts.window offset size) fixed done⟩

end Region

namespace Mask

theorem testBit_valueOf (bits : List Bool) (i : Nat) :
    (valueOf bits).testBit i = bits.getD i false := by
  induction bits generalizing i with
  | nil => simp [valueOf]
  | cons b rest ih =>
    have half : (b.toNat + 2 * valueOf rest) / 2 = valueOf rest := by
      have := b.toNat_le
      omega
    cases i with
    | zero => cases b <;> simp [valueOf, Nat.testBit_zero]
    | succ i => rw [valueOf, Nat.testBit_succ, half, ih, List.getD_cons_succ]

theorem valueOf_lt (bits : List Bool) : valueOf bits < 2 ^ bits.length := by
  induction bits with
  | nil => simp [valueOf]
  | cons b rest ih =>
    have := b.toNat_le
    rw [valueOf, List.length_cons, Nat.pow_succ]
    omega

/-- A run of bits that holds the digits of a number is read as the number. -/
theorem valueOf_eq {bits : List Bool} {value : Nat} (small : value < 2 ^ bits.length)
    (digits : ∀ i, i < bits.length → bits.getD i false = value.testBit i) :
    valueOf bits = value := by
  refine Nat.eq_of_testBit_eq fun i => ?_
  rw [testBit_valueOf]
  by_cases inside : i < bits.length
  · exact digits i inside
  · have past : bits.length ≤ i := Nat.le_of_not_lt inside
    rw [Nat.testBit_lt_two_pow (small.trans_le (Nat.pow_le_pow_right Nat.two_pos past)),
      List.getD_eq_getElem?_getD, List.getElem?_eq_none past, Option.getD_none]

theorem valueAt_eq {m : Mask} {offset width value : Nat} (small : value < 2 ^ width)
    (digits : ∀ i, i < width → m.get (offset + i) = value.testBit i) :
    m.valueAt offset width = value := by
  refine valueOf_eq (by simpa using small) fun i lt => ?_
  simp only [List.length_map, List.length_range] at lt
  simp [lt, digits i lt]

end Mask

end FsmFabric
