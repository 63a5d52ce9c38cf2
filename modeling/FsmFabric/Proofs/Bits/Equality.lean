import FsmFabric.Diagram.Basic
import FsmFabric.Proofs.Bits.Enumeration

/-!
# Equality of bits

Two bit vectors are compared by going through the set bits of both in lockstep. The two loops end at
different sizes, and a set bit of one may lie where the other ends. Still the answer only depends on
the bits, those past the end being zero: it is yes exactly if all of them agree, and no only if two
of them differ.
-/

namespace FsmFabric

open Edit

namespace Bits

/-- All bits from `start` on can be read and agree. -/
def AgreeFrom (a b : Bits) (start : Nat) : Prop :=
  ∀ i, start ≤ i → ∃ value, a.get i = .ok value ∧ b.get i = .ok value

def Differ (a b : Bits) : Prop := ∃ i value, a.get i = .ok value ∧ b.get i = .ok (!value)

variable {a b c : Bits}

theorem Differ.not_agreeFrom (differ : a.Differ b) : ¬ a.AgreeFrom b 0 := by
  obtain ⟨i, value, readA, readB⟩ := differ
  intro agree
  obtain ⟨value', readA', readB'⟩ := agree i (Nat.zero_le i)
  obtain rfl := Except.ok.inj (readA.symm.trans readA')
  have same := Except.ok.inj (readB.symm.trans readB')
  cases value <;> cases same

theorem FirstFrom.get_elsewhere {size start k i : Nat} (first : b.FirstFrom size start k)
    (sized : b.size = .ok size) (le : start ≤ i) (elsewhere : i < k ∨ size ≤ i) :
    b.get i = .ok false := by
  rcases elsewhere with before | past
  · exact first.clear i le before
  · exact get_past sized past

/-! ## The loop -/

section Lockstep

variable {m n start i j : Nat}

/-- Where the loop stops, both vectors have ended, or one of them has a set bit that the other
lacks. -/
private theorem stop_spec (sizeA : a.size = .ok m) (sizeB : b.size = .ok n)
    (firstA : a.FirstFrom m start i) (firstB : b.FirstFrom n start j)
    (stop : ¬ (i < m ∧ j < n ∧ i = j)) :
    if m ≤ i ∧ n ≤ j then a.AgreeFrom b start else a.Differ b := by
  have boundA := firstA.le
  have boundB := firstB.le
  split
  · intro k le
    exact ⟨false, firstA.get_elsewhere sizeA le (by omega), firstB.get_elsewhere sizeB le (by omega)⟩
  · have lacks : (i < m ∧ (i < j ∨ n ≤ i)) ∨ (j < n ∧ (j < i ∨ m ≤ j)) := by omega
    rcases lacks with ⟨inside, elsewhere⟩ | ⟨inside, elsewhere⟩
    · obtain ⟨le, set⟩ := firstA.set inside
      exact ⟨i, true, set, firstB.get_elsewhere sizeB le elsewhere⟩
    · obtain ⟨le, set⟩ := firstB.set inside
      exact ⟨j, false, firstA.get_elsewhere sizeA le elsewhere, set⟩

/-- The invariant is that both cursors stand at the first set bit from one common start on, and that
all bits before it agree. -/
private theorem equals_go_spec {left : Nat} {same : Bool} (sizeA : a.size = .ok m)
    (sizeB : b.size = .ok n) (firstA : a.FirstFrom m start i) (firstB : b.FirstFrom n start j)
    (enough : m ≤ start + left) (answer : equals.go a b m n left i j = .ok same) :
    if same then a.AgreeFrom b start else a.Differ b := by
  induction left generalizing start i j with
  | zero =>
    cases answer
    have ended := firstA.set
    simpa using stop_spec sizeA sizeB firstA firstB (by omega)
  | succ left ih =>
    rw [equals.go] at answer
    split at answer
    · next both =>
      simp only [Bool.and_eq_true, decide_eq_true_eq, beq_iff_eq] at both
      obtain ⟨⟨insideA, insideB⟩, rfl⟩ := both
      obtain ⟨k, nextA, answer⟩ := bind_eq_ok.1 answer
      obtain ⟨l, nextB, answer⟩ := bind_eq_ok.1 answer
      obtain ⟨le, setA⟩ := firstA.set insideA
      obtain ⟨-, setB⟩ := firstB.set insideB
      have rest := ih (firstFrom_of_next sizeA nextA) (firstFrom_of_next sizeB nextB) (by omega)
        answer
      cases same with
      | false => exact rest
      | true =>
        intro p low
        rcases Nat.lt_trichotomy p i with before | rfl | behind
        · exact ⟨false, firstA.clear p low before, firstB.clear p low before⟩
        · exact ⟨true, setA, setB⟩
        · exact rest p behind
    · next stop =>
      cases answer
      simpa using stop_spec sizeA sizeB firstA firstB (by simpa [and_assoc] using stop)

end Lockstep

theorem equals_spec {same : Bool} (answer : a.equals b = .ok same) :
    if same then a.AgreeFrom b 0 else a.Differ b := by
  obtain ⟨i, firstA, answer⟩ := bind_eq_ok.1 answer
  obtain ⟨j, firstB, answer⟩ := bind_eq_ok.1 answer
  obtain ⟨m, sizeA, answer⟩ := bind_eq_ok.1 answer
  obtain ⟨n, sizeB, answer⟩ := bind_eq_ok.1 answer
  exact equals_go_spec sizeA sizeB (firstFrom_of_first sizeA firstA)
    (firstFrom_of_first sizeB firstB) (Nat.le_add_left _ _) answer

/-- Bits that can be read can be compared. -/
theorem exists_equals (readA : a.Readable) (readB : b.Readable) :
    ∃ same, a.equals b = .ok same := by
  obtain ⟨ma, showsA⟩ := readA.exists_shows
  obtain ⟨mb, showsB⟩ := readB.exists_shows
  have loop (left i j : Nat) : ∃ same, equals.go a b ma.size mb.size left i j = .ok same := by
    induction left generalizing i j with
    | zero => exact ⟨_, rfl⟩
    | succ left ih =>
      rw [equals.go]
      split
      · rw [showsA.next, showsB.next]
        exact ih _ _
      · exact ⟨_, rfl⟩
  rw [equals, showsA.first, showsB.first, showsA.size, showsB.size]
  exact loop _ _ _

/-! ## Bits that agree -/

theorem agreeFrom_zero :
    a.AgreeFrom b 0 ↔ ∀ i, ∃ value, a.get i = .ok value ∧ b.get i = .ok value :=
  ⟨fun agree i => agree i (Nat.zero_le i), fun agree i _ => agree i⟩

namespace AgreeFrom

theorem refl (readable : a.Readable) : a.AgreeFrom a 0 := by
  intro i _
  obtain ⟨value, read⟩ := readable i
  exact ⟨value, read, read⟩

theorem symm (agree : a.AgreeFrom b 0) : b.AgreeFrom a 0 := by
  intro i le
  obtain ⟨value, readA, readB⟩ := agree i le
  exact ⟨value, readB, readA⟩

theorem trans (left : a.AgreeFrom b 0) (right : b.AgreeFrom c 0) : a.AgreeFrom c 0 := by
  intro i le
  obtain ⟨value, readA, readB⟩ := left i le
  obtain ⟨value', readB', readC⟩ := right i le
  obtain rfl := Except.ok.inj (readB.symm.trans readB')
  exact ⟨value, readA, readC⟩

theorem left_readable (agree : a.AgreeFrom b 0) : a.Readable := by
  intro i
  obtain ⟨value, readA, -⟩ := agree i (Nat.zero_le i)
  exact ⟨value, readA⟩

end AgreeFrom

theorem equals_eq_true : a.equals b = .ok true ↔ a.AgreeFrom b 0 := by
  refine ⟨equals_spec, fun agree => ?_⟩
  obtain ⟨same, answer⟩ := exists_equals agree.left_readable agree.symm.left_readable
  cases same with
  | true => exact answer
  | false => exact absurd agree (Differ.not_agreeFrom (equals_spec answer))

theorem equals_comm (readA : a.Readable) (readB : b.Readable) : a.equals b = b.equals a := by
  obtain ⟨same, answer⟩ := exists_equals readA readB
  obtain ⟨same', answer'⟩ := exists_equals readB readA
  rw [answer, answer', Except.ok.injEq, Bool.eq_iff_iff]
  constructor
  · rintro rfl
    have swapped := equals_eq_true.2 (equals_eq_true.1 answer).symm
    exact Except.ok.inj (answer'.symm.trans swapped)
  · rintro rfl
    have swapped := equals_eq_true.2 (equals_eq_true.1 answer').symm
    exact Except.ok.inj (answer.symm.trans swapped)

/-- On registers of any kinds the loop decides equality of masks. -/
theorem equals_registers (r s : Register) :
    equals ⟨r, []⟩ ⟨s, []⟩ = .ok (r.mask.equals s.mask) := by
  obtain ⟨same, answer⟩ :=
    exists_equals (shows_register r).readable (shows_register s).readable
  rw [answer, Except.ok.injEq, Bool.eq_iff_iff, Mask.equals_iff]
  constructor
  · rintro rfl i
    obtain ⟨value, readR, readS⟩ := equals_eq_true.1 answer i (Nat.zero_le i)
    exact (Except.ok.inj readR).trans (Except.ok.inj readS).symm
  · intro bits
    have agree : AgreeFrom ⟨r, []⟩ ⟨s, []⟩ 0 := fun i _ =>
      ⟨r.mask.get i, rfl, congrArg Except.ok (bits i).symm⟩
    exact Except.ok.inj (answer.symm.trans (equals_eq_true.2 agree))

/-- Comparing gives yes exactly if all bits agree, whatever the sizes and kinds, and no only if two
bits differ. On bits that can be read it always answers, alike in both directions, and it is an
equivalence relation. Growable registers and the leaves of diagrams are compared in the same way. -/
theorem equals_decides_same_bits (a b : Bits) :
    (a.equals b = .ok true ↔ ∀ i, ∃ value, a.get i = .ok value ∧ b.get i = .ok value) ∧
    (a.equals b = .ok false → ∃ i value, a.get i = .ok value ∧ b.get i = .ok (!value)) ∧
    (a.Readable → b.Readable →
      ∃ same, a.equals b = .ok same ∧ b.equals a = .ok same ∧
        (same = true ↔ ∀ i, a.get i = b.get i)) ∧
    (Equivalence fun x y : { b : Bits // b.Readable } => x.1.equals y.1 = .ok true) ∧
    (∀ r s : Register, r.growable = true → equals ⟨r, []⟩ ⟨s, []⟩ = .ok (r.agrees s)) ∧
    ∀ (output output' : Mask) (target target' : Option Nat),
      (Diagram.leaf output target).sameLeaves (.leaf output' target') = true ↔
        target = target' ∧ equals (ofMask output) (ofMask output') = .ok true := by
  refine ⟨equals_eq_true.trans agreeFrom_zero, equals_spec, fun readA readB => ?_, ?_, ?_, ?_⟩
  · obtain ⟨same, answer⟩ := exists_equals readA readB
    refine ⟨same, answer, equals_comm readA readB ▸ answer, ?_⟩
    have decides : same = true ↔ a.AgreeFrom b 0 := by
      rw [← equals_eq_true, answer, Except.ok.injEq]
    rw [decides, agreeFrom_zero]
    refine forall_congr' fun i => ⟨fun ⟨value, here, there⟩ => here.trans there.symm, fun bits => ?_⟩
    obtain ⟨value, read⟩ := readA i
    exact ⟨value, read, bits ▸ read⟩
  · constructor
    · exact fun x => equals_eq_true.2 (.refl x.2)
    · exact fun same => equals_eq_true.2 (equals_eq_true.1 same).symm
    · exact fun left right =>
        equals_eq_true.2 ((equals_eq_true.1 left).trans (equals_eq_true.1 right))
  · intro r s growable
    rw [equals_registers, Register.agrees, if_pos growable]
  · intro output output' target target'
    rw [Diagram.sameLeaves, Bool.and_eq_true, beq_iff_eq, ofMask, ofMask, equals_registers,
      Except.ok.injEq]

end Bits

end FsmFabric
