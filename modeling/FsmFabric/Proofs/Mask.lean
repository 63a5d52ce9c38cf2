import FsmFabric.Mask.Basic
import Mathlib.Data.List.Sort

/-!
# What masks hold

Every operation on masks is described by the bits that can be read afterwards. The search for set
bits works on whole words; `scan_spec` says that it finds the first one, and from there on a mask is
the ascending list of its ones.
-/

namespace FsmFabric

namespace Storage

/-- The search finds the first set bit from `start` on, if `w` is what remains of word `k`. -/
private theorem scan_go_spec {s : Storage} (tidy : s.Tidy) {start : Nat} (left k : Nat) (w : Word)
    (words : wordsFor s.size ≤ k + left) (near : start ≤ 64 * (k + 1))
    (rest : ∀ j, j < 64 → w.getLsbD j = (decide (start ≤ 64 * k + j) && s.stored (64 * k + j))) :
    scan.go s left k w ≤ s.size ∧
      (scan.go s left k w < s.size →
        start ≤ scan.go s left k w ∧ s.stored (scan.go s left k w) = true) ∧
      ∀ i, start ≤ i → 64 * k ≤ i → i < scan.go s left k w → s.stored i = false := by
  induction left generalizing k w with
  | zero =>
    refine ⟨le_rfl, fun h => absurd h (lt_irrefl _), fun i _ hk hi => ?_⟩
    simp only [scan.go] at hi
    unfold wordsFor at words
    omega
  | succ left ih =>
    unfold scan.go
    split
    · next zero =>
      have later : ∀ j, j < 64 → (s.wordAt (k + 1)).getLsbD j =
          (decide (start ≤ 64 * (k + 1) + j) && s.stored (64 * (k + 1) + j)) := by
        intro j hj
        have reached : start ≤ 64 * (k + 1) + j := by omega
        have quotient : (64 * (k + 1) + j) / 64 = k + 1 := by omega
        have remainder : (64 * (k + 1) + j) % 64 = j := by omega
        simp [reached, stored, quotient, remainder]
      obtain ⟨bound, found, clear⟩ := ih (k + 1) (s.wordAt (k + 1)) (by omega) (by omega) later
      refine ⟨bound, found, fun i hs hk hi => ?_⟩
      by_cases next : 64 * (k + 1) ≤ i
      · exact clear i hs next hi
      · have here := rest (i - 64 * k) (by omega)
        rw [show 64 * k + (i - 64 * k) = i by omega, zero] at here
        simpa [hs] using here.symm
    · next nonzero =>
      have lowest := BitVec.getLsbD_true_ctz_of_ne_zero nonzero
      have inside : w.ctz.toNat < 64 := BitVec.lt_of_getLsbD lowest
      rw [rest _ inside, Bool.and_eq_true, decide_eq_true_eq] at lowest
      have small : 64 * k + w.ctz.toNat < s.size := by
        by_contra past
        rw [tidy.clear _ (by omega)] at lowest
        exact Bool.false_ne_true lowest.2
      rw [Nat.min_eq_left small.le]
      refine ⟨small.le, fun _ => lowest, fun i hs hk hi => ?_⟩
      have below := BitVec.getLsbD_false_of_lt_ctz (x := w) (i := i - 64 * k) (by omega)
      rw [rest _ (by omega), show 64 * k + (i - 64 * k) = i by omega] at below
      simpa [hs] using below

/-- The search ends at the first set bit from `start` on, or at the size. -/
theorem scan_spec {s : Storage} (tidy : s.Tidy) (start : Nat) :
    s.scan start ≤ s.size ∧
      (s.scan start < s.size → start ≤ s.scan start ∧ s.stored (s.scan start) = true) ∧
      ∀ i, start ≤ i → i < s.scan start → s.stored i = false := by
  unfold scan
  split
  · next inside =>
    have rest : ∀ j, j < 64 →
        (s.wordAt (start / 64) &&& (BitVec.allOnes 64 <<< (start % 64))).getLsbD j =
          (decide (start ≤ 64 * (start / 64) + j) && s.stored (64 * (start / 64) + j)) := by
      intro j hj
      have quotient : (64 * (start / 64) + j) / 64 = start / 64 := by omega
      have remainder : (64 * (start / 64) + j) % 64 = j := by omega
      have reached : (start ≤ 64 * (start / 64) + j) ↔ ¬ j < start % 64 := by omega
      have ones : j - start % 64 < 64 := by omega
      rw [BitVec.getLsbD_and, BitVec.getLsbD_shiftLeft, BitVec.getLsbD_allOnes, stored, quotient,
        remainder, Bool.and_comm]
      simp only [reached, hj, ones, decide_true, decide_not, Bool.true_and, Bool.and_true]
    obtain ⟨bound, found, clear⟩ := scan_go_spec tidy (wordsFor s.size - start / 64) (start / 64) _
      (by omega) (by omega) rest
    exact ⟨bound, found, fun i hs hi => clear i hs (by omega) hi⟩
  · next outside =>
    exact ⟨le_rfl, fun h => absurd h (lt_irrefl _), fun i hs hi => by omega⟩

end Storage

namespace Mask

/-! ## The list of ones -/

theorem scan_spec (m : Mask) (start : Nat) :
    m.storage.scan start ≤ m.size ∧
      (m.storage.scan start < m.size →
        start ≤ m.storage.scan start ∧ m.get (m.storage.scan start) = true) ∧
      ∀ i, start ≤ i → i < m.storage.scan start → m.get i = false := by
  simp only [get_eq_stored]
  exact Storage.scan_spec m.tidy start

/-- No other position fits the description of the first set bit. -/
theorem scan_eq {m : Mask} {start k : Nat} (bound : k ≤ m.size)
    (found : k < m.size → start ≤ k ∧ m.get k = true)
    (clear : ∀ i, start ≤ i → i < k → m.get i = false) : m.storage.scan start = k := by
  obtain ⟨bound', found', clear'⟩ := m.scan_spec start
  rcases Nat.lt_trichotomy (m.storage.scan start) k with early | same | late
  · obtain ⟨reached, set⟩ := found' (by omega)
    rw [clear _ reached early] at set
    cases set
  · exact same
  · obtain ⟨reached, set⟩ := found (by omega)
    rw [clear' _ reached late] at set
    cases set

/-- The set bits from a position on, in ascending order. -/
def onesFrom (m : Mask) (start : Nat) : List Nat :=
  (List.range' start (m.size - start)).filter m.get

theorem onesFrom_eq (m : Mask) (start : Nat) :
    m.onesFrom start =
      if m.storage.scan start < m.size then
        m.storage.scan start :: m.onesFrom (m.storage.scan start + 1)
      else [] := by
  obtain ⟨bound, found, clear⟩ := m.scan_spec start
  split
  · next inside =>
    obtain ⟨reached, set⟩ := found inside
    have cut : List.range' start (m.size - start) =
        List.range' start (m.storage.scan start - start) ++
          m.storage.scan start ::
            List.range' (m.storage.scan start + 1) (m.size - (m.storage.scan start + 1)) := by
      have joined := List.range'_append_1 (s := start) (m := m.storage.scan start - start)
        (n := m.size - (m.storage.scan start + 1) + 1)
      rw [show start + (m.storage.scan start - start) = m.storage.scan start by omega,
        show m.storage.scan start - start + (m.size - (m.storage.scan start + 1) + 1) =
          m.size - start by omega] at joined
      rw [← List.range'_succ, joined]
    have below : (List.range' start (m.storage.scan start - start)).filter m.get = [] := by
      rw [List.filter_eq_nil_iff]
      intro i hi
      rw [List.mem_range'_1] at hi
      simp [clear i hi.1 (by omega)]
    rw [onesFrom, cut, List.filter_append, below, List.nil_append, List.filter_cons_of_pos set,
      onesFrom]
  · next outside =>
    rw [onesFrom, List.filter_eq_nil_iff]
    intro i hi
    rw [List.mem_range'_1] at hi
    simp [clear i hi.1 (by omega)]

private theorem ones_go (m : Mask) (found : List Nat) (left start : Nat)
    (enough : m.size - start ≤ left) :
    ones.go m found left (m.storage.scan start) = found.reverse ++ m.onesFrom start := by
  induction left generalizing found start with
  | zero =>
    have none : m.size - start = 0 := by omega
    simp [ones.go, onesFrom, none]
  | succ left ih =>
    rw [ones.go, onesFrom_eq]
    split
    · next inside =>
      have reached := ((m.scan_spec start).2.1 inside).1
      rw [next, ih _ _ (by omega), List.reverse_cons, List.append_assoc, List.singleton_append]
    · rw [List.append_nil]

theorem ones_eq_onesFrom (m : Mask) : m.ones = m.onesFrom 0 :=
  ones_go m [] m.size 0 (by omega)

/-- The ones of a mask are the positions of its set bits in ascending order. -/
theorem ones_eq_filter (m : Mask) : m.ones = (List.range m.size).filter m.get := by
  rw [ones_eq_onesFrom, List.range_eq_range']
  rfl

theorem lt_size_of_get {m : Mask} {i : Nat} (set : m.get i = true) : i < m.size := by
  by_contra past
  rw [m.get_of_size_le (Nat.le_of_not_lt past)] at set
  cases set

@[simp] theorem mem_ones {m : Mask} {i : Nat} : i ∈ m.ones ↔ m.get i = true := by
  rw [ones_eq_filter, List.mem_filter, List.mem_range]
  exact ⟨And.right, fun set => ⟨lt_size_of_get set, set⟩⟩

theorem pairwise_ones (m : Mask) : m.ones.Pairwise (· < ·) := by
  rw [ones_eq_filter]
  exact List.pairwise_lt_range.filter _

/-- Equality of masks is equality of all their bits, those past the end being zero. -/
theorem equals_iff {m n : Mask} : m.equals n = true ↔ ∀ i, m.get i = n.get i := by
  rw [equals, beq_iff_eq]
  constructor
  · intro same i
    rw [Bool.eq_iff_iff, ← mem_ones, ← mem_ones, same]
  · intro same
    refine m.pairwise_ones.eq_of_mem_iff n.pairwise_ones fun i => ?_
    rw [mem_ones, mem_ones, same]

/-- Tidy storage leaves no choice: the size and the bits determine a mask. -/
theorem eq_of_get {m n : Mask} (size : m.size = n.size) (same : ∀ i, m.get i = n.get i) :
    m = n := by
  have words : m.storage.words = n.storage.words := by
    have count : m.storage.words.size = n.storage.words.size := by
      rw [m.tidy.words_size, n.tidy.words_size]
      exact congrArg wordsFor size
    refine Array.ext count fun k inM inN => ?_
    apply BitVec.eq_of_getLsbD_eq
    intro j inWord
    have bit := same (64 * k + j)
    rw [get_eq_stored, get_eq_stored, Storage.stored, Storage.stored,
      show (64 * k + j) / 64 = k by omega, show (64 * k + j) % 64 = j by omega] at bit
    simpa [Storage.wordAt, Array.getD, inM, inN] using bit
  apply Mask.ext
  calc
    m.storage = ⟨m.size, m.storage.words⟩ := rfl
    _ = ⟨n.size, n.storage.words⟩ := by rw [size, words]
    _ = n.storage := rfl

theorem any_iff {m : Mask} : m.any = true ↔ ∃ i, m.get i = true := by
  rw [any, Array.any_eq_true]
  constructor
  · rintro ⟨k, hk, nonzero⟩
    have nonzero : m.storage.words[k] ≠ 0#64 := by simpa using nonzero
    refine ⟨64 * k + m.storage.words[k].ctz.toNat, ?_⟩
    have lowest := BitVec.getLsbD_true_ctz_of_ne_zero nonzero
    have inside : m.storage.words[k].ctz.toNat < 64 := BitVec.lt_of_getLsbD lowest
    rw [get_eq_stored, Storage.stored, Storage.wordAt,
      show (64 * k + m.storage.words[k].ctz.toNat) / 64 = k by omega,
      show (64 * k + m.storage.words[k].ctz.toNat) % 64 = m.storage.words[k].ctz.toNat by omega]
    simpa [Array.getD, hk] using lowest
  · rintro ⟨i, set⟩
    rw [get_eq_stored] at set
    have inside : i / 64 < m.storage.words.size := by
      by_contra past
      rw [Storage.stored_of_words_le _ (Nat.le_of_not_lt past)] at set
      cases set
    refine ⟨i / 64, inside, ?_⟩
    simp only [bne_iff_ne, ne_eq]
    intro zero
    simp [Storage.stored, Storage.wordAt, Array.getD, inside, zero] at set

/-! ## Masks built bit by bit -/

theorem get_insert (m : Mask) (i j : Nat) :
    (m.insert i).get j = (decide (j = i) || m.get j) := by
  rw [insert, get_put]
  by_cases same : j = i <;> simp [same]

private theorem ofFun_go (size : Nat) (f : Nat → Bool) (count : Nat) (le : count ≤ size) :
    let m := (List.range count).foldl (fun m i => if f i then m.put i true else m) (blank size)
    m.size = size ∧ ∀ i, m.get i = (decide (i < count) && f i) := by
  induction count with
  | zero => simp
  | succ count ih =>
    obtain ⟨width, bits⟩ := ih (by omega)
    simp only [List.range_succ, List.foldl_append, List.foldl_cons, List.foldl_nil]
    split
    · next set =>
      refine ⟨by rw [size_put, width]; omega, fun i => ?_⟩
      rw [get_put, bits]
      by_cases last : i = count
      · simp [last, set]
      · have : i < count + 1 ↔ i < count := by omega
        simp [last, this]
    · next clear =>
      refine ⟨width, fun i => ?_⟩
      rw [bits]
      by_cases last : i = count
      · simp [last, clear]
      · have : i < count + 1 ↔ i < count := by omega
        simp [this]

@[simp] theorem size_ofFun (size : Nat) (f : Nat → Bool) : (ofFun size f).size = size :=
  (ofFun_go size f size le_rfl).1

@[simp] theorem get_ofFun (size : Nat) (f : Nat → Bool) (i : Nat) :
    (ofFun size f).get i = (decide (i < size) && f i) :=
  (ofFun_go size f size le_rfl).2 i

theorem ofFun_congr {size : Nat} {f g : Nat → Bool} (same : ∀ i, i < size → f i = g i) :
    ofFun size f = ofFun size g := by
  unfold ofFun
  refine List.foldl_ext _ _ _ fun m i hi => ?_
  rw [same i (List.mem_range.1 hi)]

theorem get_foldl_insert (m : Mask) (positions : List Nat) (i : Nat) :
    (positions.foldl insert m).get i = (decide (i ∈ positions) || m.get i) := by
  induction positions generalizing m with
  | nil => simp
  | cons position rest ih =>
    rw [List.foldl_cons, ih, get_insert]
    by_cases first : i = position <;> simp [first]

theorem get_ofOnes (size : Nat) (ones : List Nat) (i : Nat) :
    (ofOnes size ones).get i = decide (i ∈ ones) := by
  rw [ofOnes, get_foldl_insert, get_blank, Bool.or_false]

theorem get_without (m other : Mask) (i : Nat) :
    (m.without other).get i = (m.get i && !other.get i) := by
  unfold without
  have general : ∀ (ones : List Nat) (m : Mask),
      (ones.foldl (fun m i => m.put i false) m).get i = (m.get i && !decide (i ∈ ones)) := by
    intro ones
    induction ones with
    | nil => simp
    | cons one rest ih =>
      intro m
      rw [List.foldl_cons, ih, get_put]
      by_cases first : i = one <;> simp [first]
  rw [general]
  congr 2
  rw [Bool.eq_iff_iff]
  simp

theorem get_intersect (m other : Mask) (i : Nat) :
    (m.intersect other).get i = (m.get i && other.get i) := by
  unfold intersect
  have general : ∀ (ones : List Nat) (m : Mask),
      (ones.foldl (fun m i => if other.get i then m else m.put i false) m).get i =
        (m.get i && (other.get i || !decide (i ∈ ones))) := by
    intro ones
    induction ones with
    | nil => simp
    | cons one rest ih =>
      intro m
      rw [List.foldl_cons, ih]
      by_cases first : i = one
      · subst first
        cases kept : other.get i <;> simp [get_put]
      · cases other.get one <;> simp [get_put, first]
  rw [general]
  cases set : m.get i <;> simp [set]

/-- The bits of a copied run. -/
@[simp] theorem get_extract (m : Mask) (offset width i : Nat) :
    (m.extract offset width).get i = (decide (i < width) && m.get (offset + i)) := by
  simp [extract]

/-! ## Masks after many changes -/

/-- A change of one bit inside of a mask. -/
structure Touches (change : Nat → Mask → Mask) : Prop where
  size : ∀ m i, i < m.size → (change i m).size = m.size
  get : ∀ m i j, j ≠ i → (change i m).get j = m.get j

theorem Touches.size_foldl {change : Nat → Mask → Mask} (touches : Touches change) {m : Mask}
    {positions : List Nat} (inside : ∀ i ∈ positions, i < m.size) :
    (positions.foldl (fun m i => change i m) m).size = m.size := by
  induction positions generalizing m with
  | nil => rfl
  | cons position rest ih =>
    obtain ⟨here, later⟩ := List.forall_mem_cons.1 inside
    have size := touches.size m position here
    rw [List.foldl_cons, ih (by rwa [size]), size]

theorem Touches.onesFrom {change : Nat → Mask → Mask} (touches : Touches change) {m : Mask}
    {i : Nat} (inside : i < m.size) : (change i m).onesFrom (i + 1) = m.onesFrom (i + 1) := by
  rw [Mask.onesFrom, Mask.onesFrom, touches.size m i inside]
  refine List.filter_congr fun j member => ?_
  rw [List.mem_range'_1] at member
  exact touches.get m i j (by omega)

theorem touches_clear : Touches fun i m => m.put i false where
  size m i inside := by
    rw [size_put]
    omega
  get m i j other := by rw [get_put, if_neg other]

theorem touches_insert : Touches fun i m => m.insert i where
  size m i inside := by
    rw [insert, size_put]
    omega
  get m i j other := by rw [insert, get_put, if_neg other]

theorem touches_keep (keep : Nat → Bool) :
    Touches fun i m => if keep i then m else m.put i false where
  size m i inside := by
    split
    · rfl
    · exact touches_clear.size m i inside
  get m i j other := by
    split
    · rfl
    · exact touches_clear.get m i j other

theorem size_ofOnes {size : Nat} {ones : List Nat} (inside : ∀ i ∈ ones, i < size) :
    (ofOnes size ones).size = size := by
  rw [← size_blank size] at inside
  exact (touches_insert.size_foldl inside).trans (size_blank size)

theorem size_intersect (m n : Mask) : (m.intersect n).size = m.size :=
  (touches_keep n.get).size_foldl fun _ member => lt_size_of_get (mem_ones.1 member)

theorem without_self (m : Mask) : m.without m = blank m.size := by
  refine eq_of_get ?_ fun i => ?_
  · exact touches_clear.size_foldl fun _ member => lt_size_of_get (mem_ones.1 member)
  · rw [get_without, get_blank, Bool.and_not_self]

theorem insert_comm (m : Mask) (i j : Nat) : (m.insert i).insert j = (m.insert j).insert i := by
  refine eq_of_get ?_ fun k => ?_
  · simp only [insert, size_put]
    omega
  · simp only [get_insert, Bool.or_left_comm]

theorem foldl_insert_append_comm (m : Mask) (l l' : List Nat) :
    (l ++ l').foldl insert m = (l' ++ l).foldl insert m :=
  List.perm_append_comm.foldl_eq' (fun i _ j _ m => m.insert_comm i j) m

/-- A mask is made again from its ones. -/
theorem foldl_insert_ones (m : Mask) : m.ones.foldl insert (blank m.size) = m := by
  refine eq_of_get (size_ofOnes fun i member => lt_size_of_get (mem_ones.1 member)) fun i => ?_
  rw [get_foldl_insert, get_blank, Bool.or_false, Bool.eq_iff_iff, decide_eq_true_eq, mem_ones]

/-- The common ones of two masks, set in a mask without ones. -/
theorem foldl_insert_common (m n : Mask) {common : List Nat}
    (members : ∀ i, i ∈ common ↔ m.get i = true ∧ n.get i = true) :
    common.foldl insert (blank m.size) = m.intersect n := by
  refine eq_of_get ?_ fun i => ?_
  · rw [size_intersect]
    exact size_ofOnes fun i member => lt_size_of_get ((members i).1 member).1
  · rw [get_foldl_insert, get_blank, Bool.or_false, get_intersect, Bool.eq_iff_iff,
      decide_eq_true_eq, members, Bool.and_eq_true]

end Mask

end FsmFabric
