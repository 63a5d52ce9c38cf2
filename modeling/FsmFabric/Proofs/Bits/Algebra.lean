import FsmFabric.Proofs.Bits.Range

/-!
# Unions and intersections

Unions and intersections are written into a register that holds something else before, or into one of
the two operands themselves. A register takes a set bit if it is growable or the bit lies inside.
That alone decides whether the operations succeed, once their operands can be read. In place they
leave what they leave when they are given a copy.
-/

namespace FsmFabric

open Edit

/-! ## Set bits in a register -/

namespace Register

variable {r r' : Register}

theorem forall_admits_iff {p : Nat → Prop} :
    (∀ i, p i → r.Admits i) ↔ r.growable = true ∨ ∀ i, p i → i < r.mask.size := by
  unfold Admits
  cases r.growable <;> simp

theorem admits_put {i : Nat} (here : r.Admits i) (value : Bool) (j : Nat) :
    Admits { r with mask := r.mask.put i value } j ↔ r.Admits j := by
  unfold Admits
  rcases here with growable | inside
  · simp [growable]
  · rw [Mask.size_put, Nat.max_eq_left inside]

theorem runs_write {i : Nat} (small : i + 1 < Checked.limit) {value : Bool} :
    Runs (Region.write [] i value) r () r' ↔
      r.Admits i ∧ { r with mask := r.mask.put i value } = r' := by
  rw [Region.runs_write, Admits]
  cases kind : r.growable with
  | true =>
    simp only [locate_growable_iff kind, small, true_and, true_or]
    constructor
    · rintro ⟨_, rfl, done⟩
      exact done
    · exact fun done => ⟨i, rfl, done⟩
  | false =>
    simp only [locate_fixed kind, Bool.false_eq_true, false_or, and_assoc]
    constructor
    · rintro ⟨_, inside, rfl, done⟩
      exact ⟨inside, done⟩
    · rintro ⟨inside, done⟩
      exact ⟨i, inside, rfl, done⟩

/-- Setting the bits of a list succeeds if each of them can be set. -/
theorem runs_sets {positions : List Nat} (small : ∀ i ∈ positions, i + 1 < Checked.limit) :
    Runs (positions.forM fun i => Region.write [] i true) r () r' ↔
      (∀ i ∈ positions, r.Admits i) ∧
        { r with mask := positions.foldl Mask.insert r.mask } = r' := by
  induction positions generalizing r with
  | nil => simp [List.forM_nil]
  | cons i rest ih =>
    obtain ⟨here, later⟩ := List.forall_mem_cons.1 small
    simp only [runs_forM_cons, runs_write here, List.forall_mem_cons, List.foldl_cons]
    constructor
    · rintro ⟨mid, ⟨admits, rfl⟩, run⟩
      obtain ⟨others, done⟩ := (ih later).1 run
      exact ⟨⟨admits, fun j member => (admits_put admits true j).1 (others j member)⟩, done⟩
    · rintro ⟨⟨admits, others⟩, done⟩
      refine ⟨_, ⟨admits, rfl⟩, (ih later).2 ⟨fun j member => ?_, done⟩⟩
      exact (admits_put admits true j).2 (others j member)

end Register

namespace Region

variable {r r' : Register}

/-! ## Loops that change what they go through -/

section Sweep

variable {visit : Nat → BitEdit Unit} {change : Nat → Mask → Mask}

/-- Each visit changes the bit that is visited, so the bits behind it are still those of the
start. -/
private theorem sweep_go_outcome (touches : Mask.Touches change)
    (visits : ∀ s i, s.mask.size < Checked.limit → i < s.mask.size →
      (visit i).outcome s = (.ok (), { s with mask := change i s.mask }))
    (small : r.mask.size < Checked.limit) (left start : Nat) (enough : r.mask.size - start ≤ left) :
    (sweep.go [] visit left (r.mask.storage.scan start)).outcome r =
      (.ok (), { r with mask := (r.mask.onesFrom start).foldl (fun m i => change i m) r.mask }) := by
  induction left generalizing r start with
  | zero =>
    have none : r.mask.size - start = 0 := by omega
    rw [Mask.onesFrom, none]
    rfl
  | succ left ih =>
    rw [Mask.onesFrom_eq]
    generalize found : r.mask.storage.scan start = i
    show (if i < r.mask.size then visit i >>= fun _ => bits [] >>= fun after =>
      ofFault (after.next i) >>= sweep.go [] visit left else pure ()).outcome r = _
    split
    · next inside =>
      have reached : start ≤ i := by
        have set := (r.mask.scan_spec start).2.1
        rw [found] at set
        exact (set inside).1
      have size := touches.size r.mask i inside
      rw [outcome_bind, visits r i small inside, List.foldl_cons, ← touches.onesFrom inside]
      exact ih (size.trans_lt small) (i + 1) (by rw [size]; omega)
    · rfl

theorem outcome_sweep (touches : Mask.Touches change)
    (visits : ∀ s i, s.mask.size < Checked.limit → i < s.mask.size →
      (visit i).outcome s = (.ok (), { s with mask := change i s.mask }))
    (small : r.mask.size < Checked.limit) :
    (sweep [] visit).outcome r =
      (.ok (), { r with mask := r.mask.ones.foldl (fun m i => change i m) r.mask }) := by
  rw [Mask.ones_eq_onesFrom]
  exact sweep_go_outcome touches visits small r.mask.size 0 (Nat.sub_le _ _)

end Sweep

theorem outcome_clear {i : Nat} (small : r.mask.size < Checked.limit) (inside : i < r.mask.size) :
    (write [] i false).outcome r = (.ok (), { r with mask := r.mask.put i false }) :=
  (Register.runs_write (by omega)).2 ⟨.inr inside, rfl⟩

theorem outcome_reset (small : r.mask.size < Checked.limit) :
    (reset []).outcome r = (.ok (), { r with mask := Mask.blank r.mask.size }) := by
  rw [← Mask.without_self]
  exact outcome_sweep Mask.touches_clear (fun s i => outcome_clear) small

theorem outcome_intersectWith {other : Bits} {n : Mask} (shows : other.Shows n)
    (small : r.mask.size < Checked.limit) :
    (intersectWith [] other).outcome r = (.ok (), { r with mask := r.mask.intersect n }) := by
  refine outcome_sweep (Mask.touches_keep n.get) (fun s i small inside => ?_) small
  rw [shows.get, ofFault_ok_bind]
  cases n.get i with
  | true => rfl
  | false => exact outcome_clear small inside

/-! ## Loops through other bits -/

/-- A visit to the set bits of other bits succeeds only if these can be read. -/
theorem runs_forOnes {source : Bits} {visit : Nat → BitEdit Unit} :
    Runs (forOnes source visit) r () r' ↔
      ∃ m, source.Shows m ∧ Runs (m.ones.forM visit) r () r' := by
  constructor
  · intro run
    obtain ⟨first, found, rest⟩ := runs_ofFault_bind.1 run
    obtain ⟨size, sized, rest⟩ := runs_ofFault_bind.1 rest
    have readable : source.Readable := by
      refine Bits.readable_of_loop sized
        (fun left i => ∃ r, Runs (forOnes.go source visit size left i) r () r')
        (fun left i inside ends => ?_) found ⟨r, rest⟩
      obtain ⟨q, run⟩ := ends
      rw [forOnes.go, if_pos inside] at run
      obtain ⟨_, mid, -, run⟩ := runs_bind.1 run
      obtain ⟨k, next, run⟩ := runs_ofFault_bind.1 run
      exact ⟨k, next, mid, run⟩
    obtain ⟨m, shows⟩ := readable.exists_shows
    exact ⟨m, shows, forOnes_eq shows visit ▸ run⟩
  · rintro ⟨m, shows, run⟩
    exact forOnes_eq shows visit ▸ run

theorem runs_reset_bind {α : Type} {next : Unit → BitEdit α} {a : α}
    (small : r.mask.size < Checked.limit) :
    Runs (reset [] >>= next) r a r' ↔
      Runs (next ()) { r with mask := Mask.blank r.mask.size } a r' := by
  unfold Runs
  rw [outcome_bind, outcome_reset small]

end Region

namespace Bits

def InRange (b : Bits) : Prop := ∀ size, b.size = .ok size → size < Checked.limit

def isSet (b : Bits) (i : Nat) : Bool := (b.get i).toOption.getD false

variable {b : Bits} {m : Mask}

theorem isSet_iff {i : Nat} : b.isSet i = true ↔ b.get i = .ok true := by
  unfold isSet
  cases b.get i with
  | error fault => exact ⟨nofun, nofun⟩
  | ok value => exact (Except.ok.injEq value true ▸ Iff.rfl)

theorem Shows.mem_ones (shows : b.Shows m) {i : Nat} : i ∈ m.ones ↔ b.get i = .ok true := by
  rw [Mask.mem_ones, shows.get, Except.ok.injEq]

theorem Shows.succ_lt (shows : b.Shows m) (inRange : b.InRange) {i : Nat} (member : i ∈ m.ones) :
    i + 1 < Checked.limit := by
  have inside := Mask.lt_size_of_get (Mask.mem_ones.1 member)
  have small := inRange m.size shows.size
  omega

theorem inRange_register {r : Register} (small : r.mask.size < Checked.limit) :
    InRange ⟨r, []⟩ := by
  intro size sized
  cases sized
  exact small

end Bits

namespace Region

variable {r r' : Register} {a b : Bits}

/-! ## Results -/

theorem runs_unionWith (smallB : b.InRange) :
    Runs (unionWith [] b) r () r' ↔
      ∃ n, b.Shows n ∧ (∀ i ∈ n.ones, r.Admits i) ∧
        { r with mask := n.ones.foldl Mask.insert r.mask } = r' := by
  refine runs_forOnes.trans (exists_congr fun n => and_congr_right fun shows => ?_)
  exact Register.runs_sets fun i => shows.succ_lt smallB

theorem runs_setUnion (smallA : a.InRange) (smallB : b.InRange)
    (small : r.mask.size < Checked.limit) :
    Runs (setUnion [] a b) r () r' ↔
      ∃ m n, a.Shows m ∧ b.Shows n ∧ (∀ i ∈ n.ones ++ m.ones, r.Admits i) ∧
        { r with mask := (n.ones ++ m.ones).foldl Mask.insert (Mask.blank r.mask.size) } = r' := by
  have both {m n : Mask} (showsA : a.Shows m) (showsB : b.Shows n) :
      Runs ((n.ones ++ m.ones).forM fun i => write [] i true)
          { r with mask := Mask.blank r.mask.size } () r' ↔
        (∀ i ∈ n.ones ++ m.ones, r.Admits i) ∧
          { r with mask := (n.ones ++ m.ones).foldl Mask.insert (Mask.blank r.mask.size) } = r' :=
    Register.runs_sets fun i member =>
      (List.mem_append.1 member).elim (showsB.succ_lt smallB) (showsA.succ_lt smallA)
  rw [setUnion, runs_reset_bind small, copyOnes, runs_bind]
  constructor
  · rintro ⟨_, mid, first, second⟩
    obtain ⟨n, showsB, first⟩ := runs_forOnes.1 first
    obtain ⟨m, showsA, second⟩ := runs_forOnes.1 second
    exact ⟨m, n, showsA, showsB, (both showsA showsB).1 (runs_forM_append.2 ⟨mid, first, second⟩)⟩
  · rintro ⟨m, n, showsA, showsB, done⟩
    obtain ⟨mid, first, second⟩ := runs_forM_append.1 ((both showsA showsB).2 done)
    exact ⟨(), mid, runs_forOnes.2 ⟨n, showsB, first⟩, runs_forOnes.2 ⟨m, showsA, second⟩⟩

/-- Bits are set where the other bits, which are read on the way, are set. -/
private theorem runs_common {positions : List Nat} :
    Runs (positions.forM fun i => do if ← ofFault (b.get i) then write [] i true) r () r' ↔
      (∀ i ∈ positions, ∃ value, b.get i = .ok value) ∧
        Runs ((positions.filter b.isSet).forM fun i => write [] i true) r () r' := by
  induction positions generalizing r with
  | nil => simp
  | cons i rest ih =>
    simp only [runs_forM_cons, runs_ofFault_bind, ih, List.forall_mem_cons]
    constructor
    · rintro ⟨mid, ⟨value, read, visit⟩, later, run⟩
      refine ⟨⟨⟨value, read⟩, later⟩, ?_⟩
      cases value with
      | true =>
        rw [List.filter_cons_of_pos (Bits.isSet_iff.2 read)]
        exact runs_forM_cons.2 ⟨mid, visit, run⟩
      | false =>
        obtain ⟨-, rfl⟩ := runs_pure.1 visit
        have clear : ¬ b.isSet i = true := by rw [Bits.isSet_iff, read]; nofun
        rwa [List.filter_cons_of_neg clear]
    · rintro ⟨⟨⟨value, read⟩, later⟩, run⟩
      cases value with
      | true =>
        rw [List.filter_cons_of_pos (Bits.isSet_iff.2 read)] at run
        obtain ⟨mid, visit, run⟩ := runs_forM_cons.1 run
        exact ⟨mid, ⟨true, read, visit⟩, later, run⟩
      | false =>
        have clear : ¬ b.isSet i = true := by rw [Bits.isSet_iff, read]; nofun
        rw [List.filter_cons_of_neg clear] at run
        exact ⟨r, ⟨false, read, runs_pure.2 ⟨rfl, rfl⟩⟩, later, run⟩

theorem runs_setIntersection (smallA : a.InRange) (small : r.mask.size < Checked.limit) :
    Runs (setIntersection [] a b) r () r' ↔
      ∃ m, a.Shows m ∧ (∀ i ∈ m.ones, ∃ value, b.get i = .ok value) ∧
        (∀ i ∈ m.ones.filter b.isSet, r.Admits i) ∧
        { r with
          mask := (m.ones.filter b.isSet).foldl Mask.insert (Mask.blank r.mask.size) } = r' := by
  rw [setIntersection, runs_reset_bind small, runs_forOnes]
  refine exists_congr fun m => and_congr_right fun shows => ?_
  rw [runs_common, Register.runs_sets fun i member =>
    shows.succ_lt smallA (List.mem_filter.1 member).1]
  rfl

theorem runs_setUnion_comm (smallA : a.InRange) (smallB : b.InRange)
    (small : r.mask.size < Checked.limit) :
    Runs (setUnion [] a b) r () r' ↔ Runs (setUnion [] b a) r () r' := by
  rw [runs_setUnion smallA smallB small, runs_setUnion smallB smallA small]
  constructor
  all_goals
    rintro ⟨m, n, showsA, showsB, admits, done⟩
    refine ⟨n, m, showsB, showsA, fun i member => admits i ?_, ?_⟩
    · exact (List.perm_append_comm.mem_iff).1 member
    · rw [Mask.foldl_insert_append_comm, done]

/-- Adding bits in place is the same as writing the union with a copy. -/
theorem runs_setUnion_copy (smallB : b.InRange) (small : r.mask.size < Checked.limit) :
    Runs (setUnion [] b ⟨r, []⟩) r () r' ↔ Runs (unionWith [] b) r () r' := by
  rw [runs_setUnion smallB (Bits.inRange_register small) small, runs_unionWith smallB]
  constructor
  · rintro ⟨n, m, shows, copied, admits, done⟩
    obtain rfl := copied.mask_eq rfl
    rw [List.foldl_append, Mask.foldl_insert_ones] at done
    exact ⟨n, shows, fun i member => admits i (List.mem_append_right _ member), done⟩
  · rintro ⟨n, shows, admits, done⟩
    refine ⟨n, r.mask, shows, Bits.shows_register r, fun i member => ?_, ?_⟩
    · rcases List.mem_append.1 member with own | other
      · exact .inr (Mask.lt_size_of_get (Mask.mem_ones.1 own))
      · exact admits i other
    · rw [List.foldl_append, Mask.foldl_insert_ones, done]

/-- The intersection with the register itself, on either side, leaves the bits that are set in
both. -/
theorem runs_setIntersection_of_own {m n : Mask} (shows : a.Shows m) (showsB : b.Shows n)
    (smallA : a.InRange) (small : r.mask.size < Checked.limit) {other : Mask}
    (own : ∀ i, m.get i = true ∧ n.get i = true ↔ r.mask.get i = true ∧ other.get i = true) :
    Runs (setIntersection [] a b) r () { r with mask := r.mask.intersect other } := by
  have members (i : Nat) : i ∈ m.ones.filter b.isSet ↔ r.mask.get i = true ∧ other.get i = true := by
    rw [List.mem_filter, Mask.mem_ones, Bits.isSet_iff, showsB.get, Except.ok.injEq, own]
  refine (runs_setIntersection smallA small).2
    ⟨m, shows, fun i _ => ⟨_, showsB.get i⟩, fun i member => ?_, ?_⟩
  · exact .inr (Mask.lt_size_of_get ((members i).1 member).1)
  · rw [Mask.foldl_insert_common r.mask other members]

theorem exists_runs_setUnion_iff (smallA : a.InRange) (smallB : b.InRange)
    (small : r.mask.size < Checked.limit) :
    (∃ r', Runs (setUnion [] a b) r () r') ↔
      a.Readable ∧ b.Readable ∧ (r.growable = true ∨
        ∀ i, a.get i = .ok true ∨ b.get i = .ok true → i < r.mask.size) := by
  simp only [runs_setUnion smallA smallB small]
  constructor
  · rintro ⟨_, m, n, showsA, showsB, admits, -⟩
    refine ⟨showsA.readable, showsB.readable, Register.forall_admits_iff.1 fun i set => admits i ?_⟩
    rw [List.mem_append, showsA.mem_ones, showsB.mem_ones]
    exact set.symm
  · rintro ⟨readA, readB, room⟩
    obtain ⟨m, showsA⟩ := readA.exists_shows
    obtain ⟨n, showsB⟩ := readB.exists_shows
    refine ⟨_, m, n, showsA, showsB, fun i member => Register.forall_admits_iff.2 room i ?_, rfl⟩
    rw [List.mem_append, showsA.mem_ones, showsB.mem_ones] at member
    exact member.symm

theorem get_of_setUnion (smallA : a.InRange) (smallB : b.InRange)
    (small : r.mask.size < Checked.limit) (run : Runs (setUnion [] a b) r () r') (i : Nat) :
    r'.mask.get i = true ↔ a.get i = .ok true ∨ b.get i = .ok true := by
  obtain ⟨m, n, showsA, showsB, -, rfl⟩ := (runs_setUnion smallA smallB small).1 run
  rw [Mask.get_foldl_insert, Mask.get_blank, Bool.or_false, decide_eq_true_eq, List.mem_append,
    showsA.mem_ones, showsB.mem_ones, or_comm]

private theorem mem_common {m : Mask} (shows : a.Shows m) {i : Nat} :
    i ∈ m.ones.filter b.isSet ↔ a.get i = .ok true ∧ b.get i = .ok true := by
  rw [List.mem_filter, shows.mem_ones, Bits.isSet_iff]

theorem exists_runs_setIntersection_iff (smallA : a.InRange) (small : r.mask.size < Checked.limit) :
    (∃ r', Runs (setIntersection [] a b) r () r') ↔
      a.Readable ∧ (∀ i, a.get i = .ok true → ∃ value, b.get i = .ok value) ∧
        (r.growable = true ∨
          ∀ i, a.get i = .ok true ∧ b.get i = .ok true → i < r.mask.size) := by
  simp only [runs_setIntersection smallA small]
  constructor
  · rintro ⟨_, m, shows, read, admits, -⟩
    refine ⟨shows.readable, fun i set => read i (shows.mem_ones.2 set), ?_⟩
    exact Register.forall_admits_iff.1 fun i common => admits i ((mem_common shows).2 common)
  · rintro ⟨readA, read, room⟩
    obtain ⟨m, shows⟩ := readA.exists_shows
    refine ⟨_, m, shows, fun i member => read i (shows.mem_ones.1 member), fun i member => ?_, rfl⟩
    exact Register.forall_admits_iff.2 room i ((mem_common shows).1 member)

theorem get_of_setIntersection (smallA : a.InRange) (small : r.mask.size < Checked.limit)
    (run : Runs (setIntersection [] a b) r () r') (i : Nat) :
    r'.mask.get i = true ↔ a.get i = .ok true ∧ b.get i = .ok true := by
  obtain ⟨m, shows, -, -, rfl⟩ := (runs_setIntersection smallA small).1 run
  rw [Mask.get_foldl_insert, Mask.get_blank, Bool.or_false, decide_eq_true_eq, mem_common shows]

/-- Unions and intersections succeed exactly if what they read can be read and each bit that they set
lies inside of the register or makes it grow; then the register holds these bits and no others. In
place they do what they do with copies, and an intersection always succeeds and keeps the size. -/
theorem set_operations_are_exact (smallA : a.InRange) (smallB : b.InRange)
    (small : r.mask.size < Checked.limit) :
    (((∃ r', Runs (setUnion [] a b) r () r') ↔
        a.Readable ∧ b.Readable ∧ (r.growable = true ∨
          ∀ i, a.get i = .ok true ∨ b.get i = .ok true → i < r.mask.size)) ∧
      ∀ r', Runs (setUnion [] a b) r () r' →
        ∀ i, r'.mask.get i = true ↔ a.get i = .ok true ∨ b.get i = .ok true) ∧
    (((∃ r', Runs (setIntersection [] a b) r () r') ↔
        a.Readable ∧ (∀ i, a.get i = .ok true → ∃ value, b.get i = .ok value) ∧
          (r.growable = true ∨
            ∀ i, a.get i = .ok true ∧ b.get i = .ok true → i < r.mask.size)) ∧
      ∀ r', Runs (setIntersection [] a b) r () r' →
        ∀ i, r'.mask.get i = true ↔ a.get i = .ok true ∧ b.get i = .ok true) ∧
    (∀ r', (Runs (unionWith [] b) r () r' ↔ Runs (setUnion [] ⟨r, []⟩ b) r () r') ∧
      (Runs (unionWith [] b) r () r' ↔ Runs (setUnion [] b ⟨r, []⟩) r () r')) ∧
    (b.Readable → ∃ n, b.Shows n ∧ (r.mask.intersect n).size = r.mask.size ∧
      Runs (intersectWith [] b) r () { r with mask := r.mask.intersect n } ∧
      Runs (setIntersection [] ⟨r, []⟩ b) r () { r with mask := r.mask.intersect n } ∧
      Runs (setIntersection [] b ⟨r, []⟩) r () { r with mask := r.mask.intersect n }) := by
  refine ⟨⟨exists_runs_setUnion_iff smallA smallB small,
    fun r' run => get_of_setUnion smallA smallB small run⟩,
    ⟨exists_runs_setIntersection_iff smallA small,
      fun r' run => get_of_setIntersection smallA small run⟩, fun r' => ?_, fun readable => ?_⟩
  · have copied : Runs (setUnion [] b ⟨r, []⟩) r () r' ↔ Runs (unionWith [] b) r () r' :=
      runs_setUnion_copy smallB small
    refine ⟨copied.symm.trans ?_, copied.symm⟩
    exact runs_setUnion_comm smallB (Bits.inRange_register small) small
  · obtain ⟨n, shows⟩ := readable.exists_shows
    have own := Bits.shows_register r
    refine ⟨n, shows, r.mask.size_intersect n, outcome_intersectWith shows small, ?_, ?_⟩
    · have inRange := Bits.inRange_register small
      exact runs_setIntersection_of_own own shows inRange small fun _ => Iff.rfl
    · exact runs_setIntersection_of_own shows own smallB small fun _ => and_comm

/-- Bits 0 and 2 of three bits, seen through a window. -/
def windowed : Bits := ⟨⟨true, Mask.ofNat 0b1011 4⟩, [.window 1 3]⟩

/-- Bit 0 of two bits, seen through a table. -/
def selected : Bits := ⟨⟨false, Mask.ofNat 0b0110 4⟩, [.mapped (.table [2, 0])]⟩

def stale (growable : Bool) : Register := ⟨growable, Mask.ofNat 0b10 2⟩

theorem set_operations_are_exact_stale :
    (∃ r', Runs (setUnion [] windowed selected) (stale true) () r' ∧
      r'.mask.get 0 = true ∧ ¬ r'.mask.get 1 = true ∧ r'.mask.get 2 = true) ∧
    (¬ ∃ r', Runs (setUnion [] windowed selected) (stale false) () r') ∧
    ∃ r', Runs (setIntersection [] windowed selected) (stale false) () r' ∧
      r'.mask.get 0 = true ∧ ¬ r'.mask.get 1 = true := by
  have readA : windowed.Readable := by
    refine Bits.readable_of_inRange (List.forall_mem_singleton.2 ?_)
    show ∀ i < 3, 1 + i < Checked.limit
    decide
  have readB : selected.Readable := by
    refine Bits.readable_of_inRange (List.forall_mem_singleton.2 ?_)
    show 2 < Checked.limit
    decide
  have smallA : windowed.InRange := by
    intro size sized
    cases sized
    decide
  have smallB : selected.InRange := by
    intro size sized
    change Checked.within 2 = .ok size at sized
    obtain ⟨small, rfl⟩ := Checked.within_eq_ok.1 sized
    exact small
  have small (growable : Bool) : (stale growable).mask.size < Checked.limit := by
    show (Mask.ofNat 0b10 2).size < Checked.limit
    decide
  have clear (choice : windowed.get 1 = .ok true ∨ selected.get 1 = .ok true) : False := by
    rcases choice with set | set <;> cases set
  have below (i : Nat) (both : windowed.get i = .ok true ∧ selected.get i = .ok true) :
      i < (stale false).mask.size := by
    by_contra past
    have sized : selected.size = .ok 2 := rfl
    have unset := Bits.get_past sized (Nat.le_of_not_lt past)
    rw [both.2] at unset
    cases unset
  obtain ⟨⟨union, bits⟩, -⟩ := set_operations_are_exact smallA smallB (small true)
  obtain ⟨⟨narrow, -⟩, ⟨common, shared⟩, -⟩ := set_operations_are_exact smallA smallB (small false)
  refine ⟨?_, fun fits => ?_, ?_⟩
  · obtain ⟨r', run⟩ := union.2 ⟨readA, readB, .inl rfl⟩
    exact ⟨r', run, (bits r' run 0).2 (.inl rfl), fun set => clear ((bits r' run 1).1 set),
      (bits r' run 2).2 (.inl rfl)⟩
  · rcases (narrow.1 fits).2.2 with growable | inside
    · cases growable
    · exact absurd (inside 2 (.inl rfl)) (by decide)
  · obtain ⟨r', run⟩ := common.2 ⟨readA, fun i _ => readB i, .inr below⟩
    exact ⟨r', run, (shared r' run 0).2 ⟨rfl, rfl⟩,
      fun set => clear (.inl ((shared r' run 1).1 set).1)⟩

end Region

end FsmFabric
