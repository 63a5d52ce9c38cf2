import FsmFabric.Proofs.Bits
import FsmFabric.Proofs.Tabulate

/-!
# Regions that are runs of bits

Through windows one sees a run of bits of a register. An operation on such a region can be told
apart from the register: it is a list of assignments to the bits that are seen, which are made in
order up to the first one that lies outside. The register then holds the changed run in place of the
old one.
-/

namespace FsmFabric

open Edit

def Checked.Fits (offset width : Nat) : Prop := ∀ i < width, offset + i < limit

/-! ## Runs of a mask -/

namespace Mask

/-- The mask with the bits from `start` on replaced by those of a run. -/
def splice (m : Mask) (start : Nat) (run : Mask) : Mask :=
  ofFun m.size fun i =>
    if start ≤ i ∧ i < start + run.size then run.get (i - start) else m.get i

variable (m : Mask) (start : Nat)

@[simp] theorem size_splice (run : Mask) : (m.splice start run).size = m.size :=
  size_ofFun _ _

theorem get_splice_inside {run : Mask} (fits : start + run.size ≤ m.size) {i : Nat}
    (inside : i < run.size) : (m.splice start run).get (start + i) = run.get i := by
  rw [splice, get_ofFun, if_pos (by omega), decide_eq_true (by omega), Bool.true_and,
    Nat.add_sub_cancel_left]

theorem get_splice_outside {run : Mask} {i : Nat} (outside : i < start ∨ start + run.size ≤ i) :
    (m.splice start run).get i = m.get i := by
  rw [splice, get_ofFun, if_neg (by omega)]
  by_cases inside : i < m.size
  · simp [inside]
  · simp [inside, m.get_of_size_le (Nat.le_of_not_lt inside)]

@[simp] theorem size_extract (width : Nat) : (m.extract start width).size = width :=
  size_ofFun _ _

theorem splice_extract (width : Nat) : m.splice start (m.extract start width) = m := by
  refine eq_of_get (size_splice _ _ _) fun i => ?_
  by_cases inside : start ≤ i ∧ i < start + width
  · have within : i - start < width := by omega
    rw [splice, get_ofFun, size_extract, if_pos inside, get_extract, decide_eq_true within,
      Nat.add_sub_cancel' inside.1, Bool.true_and]
    by_cases short : i < m.size
    · simp [short]
    · simp [m.get_of_size_le (Nat.le_of_not_lt short)]
  · rw [get_splice_outside _ _ (by rw [size_extract]; omega)]

theorem extract_splice {run : Mask} (fits : start + run.size ≤ m.size) :
    (m.splice start run).extract start run.size = run := by
  refine eq_of_get (size_extract _ _ _) fun i => ?_
  rw [get_extract]
  by_cases inside : i < run.size
  · simp [inside, m.get_splice_inside start fits inside]
  · simp [inside, run.get_of_size_le (Nat.le_of_not_lt inside)]

theorem splice_splice {run run' : Mask} (same : run.size = run'.size) :
    (m.splice start run).splice start run' = m.splice start run' := by
  refine eq_of_get (by simp) fun i => ?_
  by_cases inside : start ≤ i ∧ i < start + run'.size
  · simp [splice, inside]
  · rw [get_splice_outside _ _ (by omega), get_splice_outside _ _ (by omega),
      get_splice_outside _ _ (by omega)]

/-- A bit of a run is written in the mask or in the run alike. -/
theorem put_eq_splice {width i : Nat} (fits : start + width ≤ m.size) (inside : i < width)
    (value : Bool) :
    m.put (start + i) value = m.splice start ((m.extract start width).put i value) := by
  have size : ((m.extract start width).put i value).size = width := by
    rw [size_put, size_extract]
    omega
  refine eq_of_get (by rw [size_put, size_splice]; omega) fun k => ?_
  by_cases within : start ≤ k ∧ k < start + width
  · obtain ⟨j, rfl⟩ := Nat.exists_eq_add_of_le within.1
    rw [get_splice_inside _ _ (by omega) (by omega), get_put, get_put, get_extract,
      decide_eq_true (by omega), Bool.true_and]
    exact if_congr (by omega) rfl rfl
  · rw [get_splice_outside _ _ (by omega), get_put, if_neg (by omega)]

/-! ## Assignments -/

/-- Makes assignments to bits one after the other, up to the first one outside of the mask, which is
the error. What was assigned before stays. -/
def assign (m : Mask) : List (Nat × Bool) → Except (Failure BitError) Unit × Mask
  | [] => (.ok (), m)
  | (i, value) :: rest =>
    if i < m.size then (m.put i value).assign rest
    else (.error (.refused (.outOfBounds i m.size)), m)

@[simp] theorem size_assign (assignments : List (Nat × Bool)) :
    (m.assign assignments).2.size = m.size := by
  induction assignments generalizing m with
  | nil => rfl
  | cons assignment rest ih =>
    obtain ⟨i, value⟩ := assignment
    unfold assign
    split
    · rw [ih, size_put]
      omega
    · rfl

private theorem size_put_inside {m : Mask} {i : Nat} (inside : i < m.size) (value : Bool) :
    (m.put i value).size = m.size := by
  rw [size_put]
  omega

/-- The first assignment outside of the mask is the one that is refused. -/
theorem assign_result (assignments : List (Nat × Bool)) :
    (m.assign assignments).1 =
      (assignments.find? fun a => decide (m.size ≤ a.1)).elim (.ok ())
        fun a => .error (.refused (.outOfBounds a.1 m.size)) := by
  induction assignments generalizing m with
  | nil => rfl
  | cons assignment rest ih =>
    obtain ⟨i, value⟩ := assignment
    unfold assign
    split
    · next inside =>
      have width := size_put_inside inside value
      rw [List.find?_cons_of_neg (by simpa using inside), ih, width]
    · next outside =>
      rw [List.find?_cons_of_pos (by simpa using outside)]
      rfl

theorem get_assign_of_forall_ne {assignments : List (Nat × Bool)} {b : Nat}
    (others : ∀ a ∈ assignments.takeWhile fun a => decide (a.1 < m.size), a.1 ≠ b) :
    (m.assign assignments).2.get b = m.get b := by
  induction assignments generalizing m with
  | nil => rfl
  | cons assignment rest ih =>
    obtain ⟨i, value⟩ := assignment
    unfold assign
    split
    · next inside =>
      rw [List.takeWhile_cons_of_pos (by simpa using inside), List.forall_mem_cons] at others
      rw [ih _ (by rw [size_put_inside inside value]; exact others.2), get_put,
        if_neg fun same => others.1 same.symm]
    · rfl

theorem get_assign_of_mem {assignments : List (Nat × Bool)}
    (distinct : (assignments.map Prod.fst).Nodup) {a : Nat × Bool}
    (made : a ∈ assignments.takeWhile fun a => decide (a.1 < m.size)) :
    (m.assign assignments).2.get a.1 = a.2 := by
  induction assignments generalizing m with
  | nil => exact absurd made List.not_mem_nil
  | cons assignment rest ih =>
    obtain ⟨i, value⟩ := assignment
    rw [List.map_cons, List.nodup_cons] at distinct
    unfold assign
    split
    · next inside =>
      rw [List.takeWhile_cons_of_pos (by simpa using inside), List.mem_cons] at made
      rcases made with rfl | later
      · rw [get_assign_of_forall_ne _ fun b member same => ?_, get_put, if_pos rfl]
        exact distinct.1 (same ▸ List.mem_map_of_mem (List.takeWhile_subset _ member))
      · exact ih _ distinct.2 (by rwa [size_put_inside inside value])
    · next outside =>
      rw [List.takeWhile_cons_of_neg (by simpa using outside)] at made
      exact absurd made List.not_mem_nil

theorem map_fst_assignments (positions : List Nat) (value : Nat → Bool) :
    (positions.map fun i => (i, value i)).map Prod.fst = positions := by
  rw [List.map_map]
  exact List.map_id positions

/-- Exactly the assignments before the first one outside are made, and that one is the error. -/
structure Assigned (old : Mask) (assignments : List (Nat × Bool))
    (result : Except (Failure BitError) Unit) (new : Mask) : Prop where
  size : new.size = old.size
  made : ∀ a ∈ assignments.takeWhile fun a => decide (a.1 < old.size), new.get a.1 = a.2
  kept : ∀ b, (∀ a ∈ assignments.takeWhile fun a => decide (a.1 < old.size), a.1 ≠ b) →
    new.get b = old.get b
  result : result = (assignments.find? fun a => decide (old.size ≤ a.1)).elim (.ok ())
    fun a => .error (.refused (.outOfBounds a.1 old.size))

theorem assigned_assign {assignments : List (Nat × Bool)}
    (distinct : (assignments.map Prod.fst).Nodup) :
    m.Assigned assignments (m.assign assignments).1 (m.assign assignments).2 where
  size := m.size_assign assignments
  made _ := m.get_assign_of_mem distinct
  kept _ := m.get_assign_of_forall_ne
  result := m.assign_result assignments

end Mask

/-! ## What is shown -/

namespace Bits

/-- The bits can be read, and they are those of a mask. -/
structure Shows (b : Bits) (m : Mask) : Prop where
  size : b.size = .ok m.size
  get : ∀ i, b.get i = .ok (m.get i)

theorem shows_ofMask (m : Mask) : (ofMask m).Shows m := ⟨rfl, fun _ => rfl⟩

variable {b : Bits} {m : Mask}

theorem Shows.mask_eq (shows : b.Shows m) (plain : b.region = []) : b.register.mask = m := by
  obtain ⟨register, region⟩ := b
  cases plain
  exact Mask.eq_of_get (Except.ok.inj shows.size) fun i => Except.ok.inj (shows.get i)

theorem Shows.seek (shows : b.Shows m) (left start : Nat) (enough : start + left = m.size) :
    b.seek left start = .ok (m.storage.scan start) := by
  induction left generalizing start with
  | zero =>
    have past : m.storage.scan start = start :=
      Mask.scan_eq (by omega) (fun inside => by omega) fun i le lt => by omega
    rw [Bits.seek, past]
  | succ left ih =>
    rw [Bits.seek, shows.get start]
    by_cases set : m.get start = true
    · have here : m.storage.scan start = start :=
        Mask.scan_eq (by omega) (fun _ => ⟨Nat.le_refl start, set⟩) fun i le lt => by omega
      simp [bind, Except.bind, pure, Except.pure, set, here]
    · obtain ⟨bound, found, clear⟩ := m.scan_spec (start + 1)
      have later : m.storage.scan start = m.storage.scan (start + 1) := by
        refine Mask.scan_eq bound (fun inside => ?_) fun i le lt => ?_
        · exact ⟨by have := (found inside).1; omega, (found inside).2⟩
        · by_cases first : i = start
          · rw [first]
            exact Bool.eq_false_iff.2 set
          · exact clear i (by omega) lt
      rw [later, ← ih (start + 1) (by omega)]
      simp [bind, Except.bind, set]

theorem Shows.seekFrom (shows : b.Shows m) (start : Nat) :
    b.seekFrom start = .ok (m.storage.scan start) := by
  rw [Bits.seekFrom, shows.size]
  simp only [bind, Except.bind, pure, Except.pure]
  split
  · next inside => exact shows.seek _ _ (by omega)
  · next outside =>
    exact congrArg Except.ok (Mask.scan_eq (Nat.le_refl _) (fun inside => by omega)
      fun i le lt => by omega).symm

theorem Shows.first (shows : b.Shows m) : b.first = .ok (m.storage.scan 0) := by
  unfold Bits.first
  split
  · next plain => rw [shows.mask_eq plain, Mask.first]
  · exact shows.seekFrom 0

theorem Shows.next (shows : b.Shows m) (i : Nat) : b.next i = .ok (m.storage.scan (i + 1)) := by
  unfold Bits.next
  split
  · next plain => rw [shows.mask_eq plain, Mask.next]
  · exact shows.seekFrom (i + 1)

/-- A run can be read exactly if all of its positions are in range. -/
theorem Shows.run_eq_ok (shows : b.Shows m) {offset width : Nat} {bits : List Bool} :
    b.run offset width = .ok bits ↔
      Checked.Fits offset width ∧ bits = (List.range width).map fun i => m.get (offset + i) := by
  refine tabulate_eq_ok_iff fun i _ bit => ?_
  simp only [bind_eq_ok, Checked.add, Checked.within_eq_ok]
  constructor
  · rintro ⟨_, ⟨inRange, rfl⟩, read⟩
    rw [shows.get] at read
    exact ⟨inRange, (Except.ok.inj read).symm⟩
  · rintro ⟨inRange, rfl⟩
    exact ⟨_, ⟨inRange, rfl⟩, shows.get (offset + i)⟩

theorem Shows.run (shows : b.Shows m) {offset width : Nat}
    (small : offset + width ≤ Checked.limit) :
    b.run offset width = .ok ((List.range width).map fun i => m.get (offset + i)) :=
  shows.run_eq_ok.2 ⟨fun i lt => by omega, rfl⟩

theorem Shows.extract_eq_ok (shows : b.Shows m) {offset width : Nat} {copy : Mask} :
    b.extract offset width = .ok copy ↔
      Checked.Fits offset width ∧ copy = m.extract offset width := by
  have same : (Mask.ofFun width fun i =>
      (((List.range width).map fun i => m.get (offset + i)).toArray.getD i false)) =
      m.extract offset width := Mask.ofFun_congr fun i lt => by simp [lt]
  simp only [Bits.extract, bind_eq_ok, pure_eq_ok, shows.run_eq_ok]
  constructor
  · rintro ⟨_, ⟨fits, rfl⟩, rfl⟩
    exact ⟨fits, same⟩
  · rintro ⟨fits, rfl⟩
    exact ⟨_, ⟨fits, rfl⟩, same⟩

theorem Shows.extract (shows : b.Shows m) {offset width : Nat}
    (small : offset + width ≤ Checked.limit) :
    b.extract offset width = .ok (m.extract offset width) :=
  shows.extract_eq_ok.2 ⟨fun i lt => by omega, rfl⟩

theorem Shows.valueAt (shows : b.Shows m) {offset width : Nat}
    (small : offset + width ≤ Checked.limit) (short : width ≤ 64) :
    b.valueAt offset width = .ok (m.valueAt offset width) := by
  rw [Bits.valueAt, Nat.min_eq_left short, shows.run small]
  rfl

end Bits

/-! ## Operations on a run -/

def Register.Fixed (total : Nat) (r : Register) : Prop :=
  r.growable = false ∧ r.mask.size = total

namespace Region

/-- The region is a run of `size` bits from `start` on in every fixed register of `total` bits. -/
structure Spans (region : Region) (total start size : Nat) : Prop where
  fits : start + size ≤ total
  shows : ∀ m : Mask, m.size = total → Bits.Shows ⟨⟨false, m⟩, region⟩ (m.extract start size)
  locate : ∀ m : Mask, m.size = total → ∀ i, (⟨false, m⟩ : Register).locate region i =
    if i < size then .ok (start + i) else .error (.refused (.outOfBounds i size))

theorem spans_nil (total : Nat) : Spans [] total 0 total where
  fits := by omega
  shows m sized := by
    have whole : m.extract 0 total = m :=
      Mask.eq_of_get (by rw [Mask.size_extract, sized]) fun i => by
        by_cases inside : i < total
        · simp [inside]
        · simp [inside, m.get_of_size_le (show m.size ≤ i by omega)]
    rw [whole]
    exact Bits.shows_ofMask m
  locate m sized i := by
    subst sized
    rw [Nat.zero_add]
    rfl

theorem Spans.window {region : Region} {total start size offset width : Nat}
    (below : Spans region total start size) (inside : offset + width ≤ size)
    (small : offset + width ≤ Checked.limit) :
    Spans (.window offset width :: region) total (start + offset) width where
  fits := by
    have := below.fits
    omega
  shows m sized := by
    refine ⟨by rw [Mask.size_extract]; rfl, fun i => ?_⟩
    show (⟨false, m⟩ : Register).read (.window offset width :: region) i = _
    rw [Mask.get_extract, Register.read]
    show (if i < width then _ else _) = _
    split
    · next within =>
      have next : (View.window offset width).below i = .ok (offset + i) :=
        Checked.within_eq_ok.2 ⟨by omega, rfl⟩
      rw [next]
      show (⟨false, m⟩ : Register).read region (offset + i) = _
      have read := (below.shows m sized).get (offset + i)
      rw [Mask.get_extract, decide_eq_true (by omega), Bool.true_and, ← Nat.add_assoc] at read
      rw [decide_eq_true within, Bool.true_and]
      exact read
    · next outside =>
      rw [decide_eq_false outside]
      rfl
  locate m sized i := by
    rw [Register.locate]
    show (if i < width then _ else _) = _
    split
    · next within =>
      have next : (View.window offset width).below i = .ok (offset + i) :=
        Checked.within_eq_ok.2 ⟨by omega, rfl⟩
      rw [next]
      show (⟨false, m⟩ : Register).locate region (offset + i) = _
      rw [below.locate m sized, if_pos (by omega), Nat.add_assoc]
    · rfl

def writeAll (region : Region) (assignments : List (Nat × Bool)) : BitEdit Unit :=
  assignments.forM fun a => region.write a.1 a.2

section Outcomes

variable {region : Region} {total start size : Nat} {m : Mask}

theorem Spans.outcome_write (spans : region.Spans total start size) (sized : m.size = total)
    (i : Nat) (value : Bool) :
    (region.write i value).outcome ⟨false, m⟩ =
      if i < size then (.ok (), ⟨false, m.put (start + i) value⟩)
      else (.error (.refused (.outOfBounds i size)), ⟨false, m⟩) := by
  have found := spans.locate m sized i
  unfold outcome write
  split at found
  · next inside => simp [ExceptT.run, ExceptT.mk, found, inside]
  · next outside => simp [ExceptT.run, ExceptT.mk, found, outside]

/-- Assignments through a region change the run of bits that it shows, and nothing else. -/
theorem Spans.outcome_writeAll (spans : region.Spans total start size) (sized : m.size = total)
    (assignments : List (Nat × Bool)) :
    (region.writeAll assignments).outcome ⟨false, m⟩ =
      (((m.extract start size).assign assignments).1,
        ⟨false, m.splice start ((m.extract start size).assign assignments).2⟩) := by
  have fits := spans.fits
  induction assignments generalizing m with
  | nil =>
    rw [Mask.assign, Mask.splice_extract]
    rfl
  | cons assignment rest ih =>
    obtain ⟨i, value⟩ := assignment
    show (region.write i value >>= fun _ => region.writeAll rest).outcome _ = _
    rw [outcome_bind, spans.outcome_write sized, Mask.assign, Mask.size_extract]
    by_cases inside : i < size
    · -- the run that is shown after the write is the old one with the bit assigned
      have written := m.put_eq_splice start (by omega) inside value
      have width : ((m.extract start size).put i value).size = size := by
        rw [Mask.size_put, Mask.size_extract]
        omega
      have shown : (m.put (start + i) value).extract start size =
          (m.extract start size).put i value := by
        have back := m.extract_splice start
          (show start + ((m.extract start size).put i value).size ≤ m.size by omega)
        rwa [width, ← written] at back
      rw [if_pos inside, if_pos inside]
      show (region.writeAll rest).outcome ⟨false, m.put (start + i) value⟩ = _
      rw [ih (by rw [Mask.size_put]; omega), shown, written,
        Mask.splice_splice _ _ (by rw [Mask.size_assign])]
    · rw [if_neg inside, if_neg inside, Mask.splice_extract]

theorem writeNat_eq (value : Nat) :
    region.writeNat value =
      region.writeAll ((List.range (digitCount value)).map fun i => (i, value.testBit i)) := by
  rw [writeNat, forRange_eq_forM, writeAll, forM_map, List.range_eq_range']

theorem Spans.upholds_write (spans : region.Spans total start size) {bad : Failure BitError → Prop}
    {i : Nat} (fine : size ≤ i → ¬ bad (.refused (.outOfBounds i size))) (value : Bool) :
    Upholds (Register.Fixed total) bad (region.write i value) := by
  intro r ⟨fixed, sized⟩
  obtain ⟨growable, m⟩ := r
  obtain rfl : growable = false := fixed
  have outcome := spans.outcome_write sized i value
  constructor
  · intro x failed
    rw [Fails, outcome] at failed
    split at failed
    · cases failed
    · next outside =>
      cases failed
      exact fine (Nat.le_of_not_lt outside)
  · intro a t run
    rw [Runs, outcome] at run
    split at run
    · next inside =>
      cases run
      have fits := spans.fits
      have sized : m.size = total := sized
      refine ⟨rfl, ?_⟩
      rw [Mask.size_put]
      omega
    · cases run

theorem Spans.upholds_writeNat (spans : region.Spans total start size)
    {bad : Failure BitError → Prop} {value : Nat}
    (fine : digitCount value ≤ size ∨ ∀ e, ¬ bad (.refused e)) :
    Upholds (Register.Fixed total) bad (region.writeNat value) := by
  refine .forRange fun i _ below => spans.upholds_write (fun outside => ?_) _
  rcases fine with short | fine
  · omega
  · exact fine _

variable {source : Bits} {copied : Mask}

theorem copyFrom_eq (shows : source.Shows copied) :
    region.copyFrom source =
      region.writeAll ((List.range copied.size).map fun i => (i, copied.get i)) := by
  rw [copyFrom, shows.size, ofFault_ok_bind, forRange_eq_forM, writeAll, forM_map,
    ← List.range_eq_range']
  simp only [shows.get, ofFault_ok_bind]

private theorem forOnes_go (shows : source.Shows copied) (visit : Nat → BitEdit Unit)
    (left first : Nat) (enough : copied.size - first ≤ left) :
    forOnes.go source visit copied.size left (copied.storage.scan first) =
      (copied.onesFrom first).forM visit := by
  induction left generalizing first with
  | zero =>
    have none : copied.size - first = 0 := by omega
    rw [Mask.onesFrom, none]
    rfl
  | succ left ih =>
    rw [forOnes.go, Mask.onesFrom_eq]
    split
    · next inside =>
      have reached := ((copied.scan_spec first).2.1 inside).1
      rw [shows.next, ofFault_ok_bind, ih _ (by omega)]
      rfl
    · rfl

theorem forOnes_eq (shows : source.Shows copied) (visit : Nat → BitEdit Unit) :
    forOnes source visit = copied.ones.forM visit := by
  rw [forOnes, shows.first, ofFault_ok_bind, shows.size, ofFault_ok_bind,
    forOnes_go shows visit _ _ (Nat.sub_le _ _), Mask.ones_eq_onesFrom]

theorem copyOnes_eq (shows : source.Shows copied) :
    region.copyOnes source = region.writeAll (copied.ones.map fun i => (i, true)) := by
  rw [copyOnes, forOnes_eq shows, writeAll, forM_map]

/-- The sweep looks for the next bit after each write. A write below leaves what it looks at as it
was. -/
private theorem Spans.sweep_go (spans : region.Spans total start size) (sized : m.size = total)
    (left first : Nat) (enough : size - first ≤ left) :
    (sweep.go region (fun i => region.write i false) left
      ((m.extract start size).storage.scan first)).outcome ⟨false, m⟩ =
      (region.writeAll (((m.extract start size).onesFrom first).map fun i => (i, false))).outcome
        ⟨false, m⟩ := by
  have fits := spans.fits
  induction left generalizing m first with
  | zero =>
    have none : (m.extract start size).size - first = 0 := by
      rw [Mask.size_extract]
      omega
    rw [Mask.onesFrom, none]
    rfl
  | succ left ih =>
    have shows := spans.shows m sized
    rw [Mask.onesFrom_eq]
    generalize found : (m.extract start size).storage.scan first = i
    show (ofFault (Bits.size ⟨⟨false, m⟩, region⟩) >>= fun n => if i < n then
      region.write i false >>= fun _ => region.bits >>= fun after =>
        ofFault (after.next i) >>= sweep.go region (fun i => region.write i false) left
      else pure ()).outcome _ = _
    rw [shows.size, ofFault_ok_bind]
    split
    · next inside =>
      have reached : first ≤ i := by
        have := ((m.extract start size).scan_spec first).2.1
        rw [found] at this
        exact (this inside).1
      rw [Mask.size_extract] at inside
      have sized' : (m.put (start + i) false).size = total := by
        rw [Mask.size_put]
        omega
      have above : ((m.put (start + i) false).extract start size).onesFrom (i + 1) =
          (m.extract start size).onesFrom (i + 1) := by
        rw [Mask.onesFrom, Mask.onesFrom, Mask.size_extract, Mask.size_extract]
        refine List.filter_congr fun k member => ?_
        rw [List.mem_range'_1] at member
        rw [Mask.get_extract, Mask.get_extract, Mask.get_put, if_neg (by omega)]
      show _ = (region.write i false >>= fun _ => region.writeAll
        (((m.extract start size).onesFrom (i + 1)).map fun i => (i, false))).outcome _
      rw [outcome_bind, outcome_bind, spans.outcome_write sized, if_pos inside]
      show (ofFault (Bits.next ⟨⟨false, m.put (start + i) false⟩, region⟩ i) >>=
        sweep.go region (fun i => region.write i false) left).outcome _ = _
      rw [(spans.shows _ sized').next, ofFault_ok_bind, ih sized' _ (by omega), above]
    · rfl

theorem Spans.outcome_reset (spans : region.Spans total start size) (sized : m.size = total) :
    region.reset.outcome ⟨false, m⟩ =
      (region.writeAll ((m.extract start size).ones.map fun i => (i, false))).outcome
        ⟨false, m⟩ := by
  have shows := spans.shows m sized
  rw [Mask.ones_eq_onesFrom, ← spans.sweep_go sized size 0 (Nat.sub_le _ _)]
  show (ofFault (Bits.first ⟨⟨false, m⟩, region⟩) >>= fun first =>
    ofFault (Bits.size ⟨⟨false, m⟩, region⟩) >>= fun size =>
      sweep.go region (fun i => region.write i false) size first).outcome _ = _
  rw [shows.first, ofFault_ok_bind, shows.size, ofFault_ok_bind, Mask.size_extract]

end Outcomes

end Region

end FsmFabric
