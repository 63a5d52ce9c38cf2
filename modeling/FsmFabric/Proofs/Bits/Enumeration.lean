import FsmFabric.Proofs.Bits.Span

/-!
# Going from set bit to set bit

A loop over the set bits asks for the first one and then, again and again, for the next one, until it
is given the size. A register answers by looking at whole words, a stack of views by looking at one
bit after the other. Both give the same answers, and the loop meets every set bit once, in ascending
order. It ends without a fault exactly if every bit can be read.
-/

namespace FsmFabric

open Edit

/-! ## The number of set bits -/

theorem Word.toNat_cpop (w : Word) : w.cpop.toNat = (List.range 64).countP w.getLsbD := by
  have general (n total : Nat) :
      w.cpopNatRec n total = total + (List.range n).countP w.getLsbD := by
    induction n generalizing total with
    | zero => rfl
    | succ n ih =>
      rw [BitVec.cpopNatRec_succ, ih, List.range_succ, List.countP_append, List.countP_singleton]
      cases w.getLsbD n with
      | false => rfl
      | true => exact Nat.add_right_comm _ _ _
  rw [BitVec.toNat_cpop, general, Nat.zero_add]

namespace Storage

variable (s : Storage)

/-- The set bits in the words up to word `k` are those below it and those in it. -/
private theorem countP_stored_succ (k : Nat) :
    (List.range (64 * (k + 1))).countP s.stored =
      (List.range (64 * k)).countP s.stored + (s.wordAt k).cpop.toNat := by
  rw [Nat.mul_succ, List.range_add, List.countP_append, List.countP_map, Word.toNat_cpop]
  congr 1
  refine List.countP_congr fun j member => ?_
  rw [List.mem_range] at member
  have quotient : (64 * k + j) / 64 = k := by omega
  have remainder : (64 * k + j) % 64 = j := by omega
  simp [stored, quotient, remainder]

theorem population_eq {s : Storage} (tidy : s.Tidy) :
    s.population = (List.range s.size).countP s.stored := by
  have words : s.population = (List.range (64 * s.words.size)).countP s.stored := by
    apply Array.foldl_induction (fun k total => total = (List.range (64 * k)).countP s.stored)
    · rfl
    · intro k total before
      rw [countP_stored_succ, before]
      simp [wordAt]
  have enough : s.size ≤ 64 * s.words.size := by
    rw [tidy.words_size, wordsFor]
    omega
  obtain ⟨more, size⟩ := Nat.exists_eq_add_of_le enough
  have clear : ((List.range more).map (s.size + ·)).countP s.stored = 0 := by
    rw [List.countP_eq_zero]
    intro i member
    obtain ⟨j, -, rfl⟩ := List.mem_map.1 member
    rw [tidy.clear _ (Nat.le_add_right _ _)]
    exact Bool.false_ne_true
  rw [words, size, List.range_add, List.countP_append, clear, Nat.add_zero]

end Storage

theorem Mask.count_eq_length_ones (m : Mask) : m.count = m.ones.length := by
  have same : m.get = m.storage.stored := funext m.get_eq_stored
  rw [count, Storage.population_eq m.tidy, ones_eq_filter, same, List.countP_eq_length_filter]
  rfl

namespace Bits

variable {b : Bits} {m : Mask}

/-! ## Bits that can be read -/

def Readable (b : Bits) : Prop := ∀ i, ∃ value, b.get i = .ok value

theorem get_past {size i : Nat} (sized : b.size = .ok size) (past : size ≤ i) :
    b.get i = .ok false := by
  obtain ⟨r, region⟩ := b
  cases region with
  | nil =>
    cases sized
    exact congrArg Except.ok (r.mask.get_of_size_le past)
  | cons view rest =>
    show (view.extent >>= fun size => _) = _
    rw [show view.extent = .ok size from sized]
    exact if_neg (Nat.not_lt.2 past)

theorem Readable.exists_size (readable : b.Readable) : ∃ size, b.size = .ok size := by
  obtain ⟨r, region⟩ := b
  cases region with
  | nil => exact ⟨r.mask.size, rfl⟩
  | cons view rest =>
    obtain ⟨value, read⟩ := readable 0
    obtain ⟨size, sized, -⟩ := bind_eq_ok.1 read
    exact ⟨size, sized⟩

theorem readable_of_below {size : Nat} (sized : b.size = .ok size)
    (below : ∀ i < size, ∃ value, b.get i = .ok value) : b.Readable := by
  intro i
  by_cases inside : i < size
  · exact below i inside
  · exact ⟨false, get_past sized (Nat.le_of_not_lt inside)⟩

theorem Shows.readable (shows : b.Shows m) : b.Readable := fun i => ⟨m.get i, shows.get i⟩

/-- Bits that can be read are those of a mask. -/
theorem Readable.exists_shows (readable : b.Readable) : ∃ m, b.Shows m := by
  obtain ⟨size, sized⟩ := readable.exists_size
  choose value read using readable
  refine ⟨Mask.ofFun size value, by rw [sized, Mask.size_ofFun], fun i => ?_⟩
  rw [Mask.get_ofFun]
  by_cases inside : i < size
  · rw [decide_eq_true inside, Bool.true_and, read]
  · rw [decide_eq_false inside, Bool.false_and, get_past sized (Nat.le_of_not_lt inside)]

theorem shows_register (r : Register) : Shows ⟨r, []⟩ r.mask := ⟨rfl, fun _ => rfl⟩

/-! ## Words and single bits -/

theorem first_eq_seekFrom (b : Bits) : b.first = b.seekFrom 0 := by
  obtain ⟨r, region⟩ := b
  cases region with
  | nil => exact ((shows_register r).seekFrom 0).symm
  | cons view rest => rfl

theorem next_eq_seekFrom (b : Bits) (i : Nat) : b.next i = b.seekFrom (i + 1) := by
  obtain ⟨r, region⟩ := b
  cases region with
  | nil => exact ((shows_register r).seekFrom (i + 1)).symm
  | cons view rest => rfl

/-- Position `k` is the first set bit from `start` on, or the size if there is none. -/
structure FirstFrom (b : Bits) (size start k : Nat) : Prop where
  le : k ≤ size
  set : k < size → start ≤ k ∧ b.get k = .ok true
  clear : ∀ i, start ≤ i → i < k → b.get i = .ok false

/-- A search that answers has read all bits before the one that it finds. -/
private theorem seek_spec {left i k : Nat} (found : b.seek left i = .ok k) :
    i ≤ k ∧ k ≤ i + left ∧ (k < i + left → b.get k = .ok true) ∧
      ∀ j, i ≤ j → j < k → b.get j = .ok false := by
  induction left generalizing i with
  | zero =>
    cases found
    exact ⟨le_rfl, le_rfl, fun inside => by omega, fun j le lt => by omega⟩
  | succ left ih =>
    obtain ⟨set, here, found⟩ := bind_eq_ok.1 found
    cases set with
    | true =>
      cases found
      exact ⟨le_rfl, Nat.le_add_right _ _, fun _ => here, fun j le lt => by omega⟩
    | false =>
      obtain ⟨low, high, set, clear⟩ := ih found
      refine ⟨by omega, by omega, fun inside => set (by omega), fun j le lt => ?_⟩
      by_cases first : j = i
      · rw [first, here]
      · exact clear j (by omega) lt

theorem firstFrom_of_seekFrom {size start k : Nat} (sized : b.size = .ok size)
    (found : b.seekFrom start = .ok k) : b.FirstFrom size start k := by
  rw [seekFrom, sized] at found
  change (if start < size then b.seek (size - start) start else .ok size) = .ok k at found
  split at found
  · obtain ⟨low, high, set, clear⟩ := seek_spec found
    exact ⟨by omega, fun inside => ⟨low, set (by omega)⟩, clear⟩
  · cases found
    exact ⟨le_rfl, fun inside => by omega, fun i le lt => by omega⟩

theorem firstFrom_of_first {size k : Nat} (sized : b.size = .ok size) (found : b.first = .ok k) :
    b.FirstFrom size 0 k :=
  firstFrom_of_seekFrom sized (b.first_eq_seekFrom ▸ found)

theorem firstFrom_of_next {size i k : Nat} (sized : b.size = .ok size)
    (found : b.next i = .ok k) : b.FirstFrom size (i + 1) k :=
  firstFrom_of_seekFrom sized (b.next_eq_seekFrom i ▸ found)

/-! ## The loop -/

/-- Asking for the next position again and again, from `i` on, gives the listed positions and then
the size. -/
inductive Passes (next : Nat → Except Fault Nat) (size : Nat) : Nat → List Nat → Prop
  | done : Passes next size size []
  | step {i j : Nat} {rest : List Nat} (inside : i < size) (found : next i = .ok j)
      (later : Passes next size j rest) : Passes next size i (i :: rest)

theorem Shows.passes (shows : b.Shows m) (start : Nat) :
    Passes b.next m.size (m.storage.scan start) (m.onesFrom start) := by
  -- the measure is what lies behind the start, since each bit that is found lies behind it
  induction left : m.size - start using Nat.strong_induction_on generalizing start with
  | h left ih =>
    obtain ⟨bound, found, -⟩ := m.scan_spec start
    rw [Mask.onesFrom_eq]
    split
    · next inside =>
      have reached := (found inside).1
      exact .step inside (shows.next _) (ih _ (by omega) _ rfl)
    · next outside =>
      rw [show m.storage.scan start = m.size by omega]
      exact .done

private theorem Shows.ones_go (shows : b.Shows m) (found : List Nat) (left i : Nat) :
    ones.go b m.size found left i = .ok (Mask.ones.go m found left i) := by
  induction left generalizing found i with
  | zero => rfl
  | succ left ih =>
    rw [ones.go, Mask.ones.go]
    split
    · rw [shows.next]
      exact ih (i :: found) (m.next i)
    · rfl

theorem Shows.ones (shows : b.Shows m) : b.ones = .ok m.ones := by
  rw [Bits.ones, shows.first, shows.size]
  exact shows.ones_go [] m.size m.first

/-- A loop that comes to its end has read every bit on its way. `Ends left i` says that it does so
from position `i` on, in at most `left` passes. -/
theorem readable_of_loop {size i : Nat} (sized : b.size = .ok size) (Ends : Nat → Nat → Prop)
    (step : ∀ left i, i < size → Ends (left + 1) i → ∃ k, b.next i = .ok k ∧ Ends left k)
    (found : b.first = .ok i) (ends : Ends size i) : b.Readable := by
  have loop {left start i : Nat} (ends : Ends left i) (first : b.FirstFrom size start i)
      (enough : size ≤ start + left) {j : Nat} (le : start ≤ j) (lt : j < size) :
      ∃ value, b.get j = .ok value := by
    induction left generalizing start i with
    | zero => omega
    | succ left ih =>
      rcases Nat.lt_trichotomy j i with before | rfl | behind
      · exact ⟨false, first.clear j le before⟩
      · exact ⟨true, (first.set lt).2⟩
      · have inside := behind.trans lt
        have low := (first.set inside).1
        obtain ⟨k, next, ends⟩ := step left i inside ends
        exact ih ends (firstFrom_of_next sized next) (by omega) behind
  refine readable_of_below sized fun j lt => ?_
  exact loop ends (firstFrom_of_first sized found) (Nat.le_add_left _ _) (Nat.zero_le j) lt

/-- The set bits can be listed if all bits can be read, and only then. -/
theorem exists_ones_iff : (∃ l, b.ones = .ok l) ↔ b.Readable := by
  constructor
  · rintro ⟨l, listed⟩
    obtain ⟨start, found, listed⟩ := bind_eq_ok.1 listed
    obtain ⟨size, sized, listed⟩ := bind_eq_ok.1 listed
    refine readable_of_loop sized (fun left i => ∃ found, ones.go b size found left i = .ok l)
      (fun left i inside ends => ?_) found ⟨[], listed⟩
    obtain ⟨found, listed⟩ := ends
    rw [ones.go, if_pos inside] at listed
    obtain ⟨k, next, listed⟩ := bind_eq_ok.1 listed
    exact ⟨k, next, i :: found, listed⟩
  · intro readable
    obtain ⟨m, shows⟩ := readable.exists_shows
    exact ⟨m.ones, shows.ones⟩

theorem exists_shows_of_ones {l : List Nat} (listed : b.ones = .ok l) :
    ∃ m, b.Shows m ∧ m.ones = l := by
  obtain ⟨m, shows⟩ := (exists_ones_iff.1 ⟨l, listed⟩).exists_shows
  exact ⟨m, shows, Except.ok.inj (shows.ones.symm.trans listed)⟩

theorem count_eq_length_ones (b : Bits) : b.count = b.ones.map List.length := by
  obtain ⟨r, region⟩ := b
  cases region with
  | nil =>
    rw [(shows_register r).ones]
    exact congrArg Except.ok r.mask.count_eq_length_ones
  | cons view rest =>
    show (ones ⟨r, view :: rest⟩ >>= fun l => pure l.length) = _
    cases ones ⟨r, view :: rest⟩ <;> rfl

/-- The search by words and the count by words give what single bits give. The loop over the set bits
ends exactly if all bits can be read; then it meets every set bit once, in ascending order, and stops
at the size, and the count is the number of its passes. -/
theorem enumeration_is_exact (b : Bits) :
    (b.first = b.seekFrom 0 ∧ (∀ cursor, b.next cursor = b.seekFrom (cursor + 1)) ∧
      b.count = b.ones.map List.length) ∧
    ((∃ l, b.ones = .ok l) ↔ b.Readable) ∧
    ∀ l, b.ones = .ok l →
      ∃ size start, b.size = .ok size ∧ b.first = .ok start ∧ Passes b.next size start l ∧
        l.Pairwise (· < ·) ∧ (∀ i, i ∈ l ↔ i < size ∧ b.get i = .ok true) ∧
        b.count = .ok l.length := by
  refine ⟨⟨b.first_eq_seekFrom, b.next_eq_seekFrom, b.count_eq_length_ones⟩, exists_ones_iff,
    fun l listed => ?_⟩
  obtain ⟨m, shows, rfl⟩ := exists_shows_of_ones listed
  refine ⟨m.size, _, shows.size, shows.first, ?_, m.pairwise_ones, fun i => ?_, ?_⟩
  · rw [Mask.ones_eq_onesFrom]
    exact shows.passes 0
  · rw [Mask.mem_ones, shows.get, Except.ok.injEq]
    exact ⟨fun set => ⟨Mask.lt_size_of_get set, set⟩, And.right⟩
  · rw [count_eq_length_ones, listed]
    rfl

end Bits

end FsmFabric
