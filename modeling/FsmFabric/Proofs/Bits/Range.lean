import FsmFabric.Proofs.Bits.Enumeration
import FsmFabric.Proofs.Mask.Hex

/-!
# Positions below views

A view maps its bits to positions of what lies below it, which are computed in 64 bits. Through a
stack of views in range a bit lies at the composed position, provided that it and all positions on
the way lie inside of their views. Reading through the stack is reading at that position. A write
goes there or is refused, and is no fault if the position has a successor in range.
-/

namespace FsmFabric

open Edit

def Failure.IsFault {ε : Type} (x : Failure ε) : Prop := ∃ fault, x = .fault fault

theorem Failure.not_isFault_refused {ε : Type} (e : ε) : ¬ (Failure.refused e).IsFault := by
  rintro ⟨_, same⟩
  cases same

theorem Edit.Spares.refused {ε α : Type} (e : ε) :
    Spares Failure.IsFault (.error (.refused e) : Except (Failure ε) α) :=
  .error (Failure.not_isFault_refused e)

/-! ## Groups and views without bounds -/

namespace Group

def target : Group → Nat → Nat
  | offset start _, i => start + i
  | slice parent first _, i => parent.target (first + i)
  | concat high low, i => if i < low.size then low.target i else high.target (i - low.size)
  | table entries, i => entries.getD i 0

/-- Slices lie inside of what they are cut from, and sums and sizes are 64-bit numbers. -/
def InRange : Group → Prop
  | offset start count => count < Checked.limit ∧ ∀ i < count, start + i < Checked.limit
  | slice parent first count => first + count ≤ parent.size ∧ parent.InRange
  | concat high low => high.size + low.size < Checked.limit ∧ high.InRange ∧ low.InRange
  | table entries => entries.length < Checked.limit

variable {g : Group}

theorem InRange.size_lt (inRange : g.InRange) : g.size < Checked.limit := by
  induction g with
  | offset start count => exact inRange.1
  | slice parent first count ih =>
    have inside := inRange.1
    have small := ih inRange.2
    show count < _
    omega
  | concat high low => exact inRange.1
  | table entries => exact inRange

theorem InRange.extent (inRange : g.InRange) : g.extent = .ok g.size :=
  Checked.within_eq_ok.2 ⟨inRange.size_lt, rfl⟩

/-- In range the entries are found without a fault. -/
theorem InRange.entry (inRange : g.InRange) {i : Nat} (inside : i < g.size) :
    g.entry i = .ok (g.target i) := by
  induction g generalizing i with
  | offset start count =>
    rw [Group.entry, if_pos (show i < count from inside)]
    exact Checked.within_eq_ok.2 ⟨inRange.2 i inside, rfl⟩
  | slice parent first count ih =>
    have inside : i < count := inside
    have fits := inRange.1
    have small := inRange.2.size_lt
    have sum : Checked.add first i = .ok (first + i) := Checked.within_eq_ok.2 ⟨by omega, rfl⟩
    rw [Group.entry, if_pos inside, sum]
    exact ih inRange.2 (by omega)
  | concat high low ihHigh ihLow =>
    have inside : i < high.size + low.size := inside
    rw [Group.entry, inRange.2.2.extent]
    show (if i < low.size then low.entry i else high.entry (i - low.size)) = _
    rw [target]
    split
    · next within => exact ihLow inRange.2.2 within
    · next behind => exact ihHigh inRange.2.1 (by omega)
  | table entries =>
    have inside : i < entries.length := inside
    simp [Group.entry, target, inside]

end Group

namespace View

def width : View → Nat
  | window _ size => size
  | mapped group => group.size

def target : View → Nat → Nat
  | window offset _, i => offset + i
  | mapped group, i => group.target i

/-- The positions below the bits of a view are computed without a fault. -/
def InRange : View → Prop
  | window offset size => ∀ i < size, offset + i < Checked.limit
  | mapped group => group.InRange

variable {v : View}

theorem InRange.extent (inRange : v.InRange) : v.extent = .ok v.width := by
  cases v with
  | window offset size => rfl
  | mapped group => exact Group.InRange.extent inRange

theorem InRange.below (inRange : v.InRange) {i : Nat} (inside : i < v.width) :
    v.below i = .ok (v.target i) := by
  cases v with
  | window offset size => exact Checked.within_eq_ok.2 ⟨inRange i inside, rfl⟩
  | mapped group => exact Group.InRange.entry inRange inside

end View

/-! ## Composed positions -/

namespace Region

/-- The position below all views where bit `i` lies, if it and all positions on the way lie inside
of their views. -/
def position? : Region → Nat → Option Nat
  | [], i => some i
  | view :: rest, i => if i < view.width then position? rest (view.target i) else none

/-- Bit `i` does not lie at the last position of all, behind which nothing can grow. -/
def Roomy (region : Region) (i : Nat) : Prop :=
  ∀ p, region.position? i = some p → p + 1 < Checked.limit

end Region

namespace Register

def Admits (r : Register) (i : Nat) : Prop := r.growable = true ∨ i < r.mask.size

theorem not_admits_iff {r : Register} {i : Nat} :
    ¬ r.Admits i ↔ r.growable = false ∧ r.mask.size ≤ i := by
  rw [Admits, not_or, Bool.not_eq_true, Nat.not_lt]

variable {r r' : Register} {region : Region}

/-- A bit of a stack is the bit at the composed position, and false if there is none. -/
theorem read_eq (r : Register) (inRange : ∀ v ∈ region, v.InRange) (i : Nat) :
    r.read region i = .ok ((region.position? i).elim false r.mask.get) := by
  induction region generalizing i with
  | nil => rfl
  | cons view rest ih =>
    obtain ⟨small, later⟩ := List.forall_mem_cons.1 inRange
    rw [read, small.extent, Region.position?]
    show (if i < view.width then _ else _) = _
    split
    · next inside =>
      rw [small.below inside]
      exact ih later _
    · rfl

/-- A write goes to the composed position, if the register admits it there. Otherwise it is
refused. -/
theorem locate_cases (r : Register) (inRange : ∀ v ∈ region, v.InRange) {i : Nat}
    (room : region.Roomy i) :
    (∃ p, region.position? i = some p ∧ r.Admits p ∧ r.locate region i = .ok p) ∨
      (∀ p, region.position? i = some p → ¬ r.Admits p) ∧
        ∃ bit size, r.locate region i = .error (.refused (.outOfBounds bit size)) := by
  induction region generalizing i with
  | nil =>
    have small := room i rfl
    cases kind : r.growable with
    | true => exact .inl ⟨i, rfl, .inl kind, (locate_growable_iff kind).2 ⟨small, rfl⟩⟩
    | false =>
      by_cases inside : i < r.mask.size
      · exact .inl ⟨i, rfl, .inr inside, (locate_fixed kind).2 ⟨inside, rfl⟩⟩
      · refine .inr ⟨fun p same admits => ?_, i, r.mask.size, ?_⟩
        · cases same
          exact admits.elim (by simp [kind]) inside
        · rw [locate, if_neg (by simp [kind]), if_neg inside]
  | cons view rest ih =>
    obtain ⟨small, later⟩ := List.forall_mem_cons.1 inRange
    rw [Region.Roomy, Region.position?] at room
    rw [Region.position?, locate, small.extent]
    show (∃ p, _ ∧ _ ∧ (if i < view.width then _ else _) = _) ∨
      _ ∧ ∃ bit size, (if i < view.width then _ else _) = _
    split
    · next inside =>
      rw [small.below inside]
      rw [if_pos inside] at room
      exact ih later room
    · refine .inr ⟨fun p found => ?_, i, view.width, rfl⟩
      cases found

end Register

/-! ## Regions that stay in range -/

namespace Region

variable {region : Region} {r : Register} {i : Nat} {value : Bool}

/-- A write changes the bit at the composed position, or it is refused and changes nothing. -/
theorem outcome_write_cases (inRange : ∀ v ∈ region, v.InRange) (room : region.Roomy i)
    (value : Bool) :
    (∃ p, region.position? i = some p ∧ r.Admits p ∧
      (region.write i value).outcome r = (.ok (), { r with mask := r.mask.put p value })) ∨
    (∀ p, region.position? i = some p → ¬ r.Admits p) ∧
      ∃ bit size, (region.write i value).outcome r =
        (.error (.refused (.outOfBounds bit size)), r) := by
  unfold outcome write
  simp only [ExceptT.run, ExceptT.mk]
  rcases r.locate_cases inRange room with
    ⟨p, found, admits, located⟩ | ⟨refused, bit, size, located⟩
  · rw [located]
    exact .inl ⟨p, found, admits, rfl⟩
  · rw [located]
    exact .inr ⟨refused, bit, size, rfl⟩

theorem outcome_of_fails_write (inRange : ∀ v ∈ region, v.InRange) (room : region.Roomy i)
    {x : Failure BitError} (failed : Fails (region.write i value) r x) :
    ((region.write i value).outcome r).2 = r ∧ ¬ x.IsFault := by
  unfold Fails at failed
  rcases outcome_write_cases inRange room value with ⟨_, -, -, outcome⟩ | ⟨-, _, _, outcome⟩
  · rw [outcome] at failed
    cases failed
  · rw [outcome] at failed ⊢
    cases failed
    exact ⟨rfl, Failure.not_isFault_refused _⟩

/-- All views of the region are in range, and so is the successor of every position below them. -/
structure Sound (region : Region) : Prop where
  inRange : ∀ v ∈ region, v.InRange
  roomy : ∀ i, region.Roomy i

theorem sound_mapped {g : Group} (inRange : g.InRange)
    (room : ∀ i < g.size, g.target i + 1 < Checked.limit) : Sound [.mapped g] where
  inRange := List.forall_mem_singleton.2 inRange
  roomy i p found := by
    rw [position?] at found
    split at found
    · next inside =>
      cases found
      exact room i inside
    · cases found

theorem sound_window {offset size : Nat} (small : offset + size < Checked.limit) :
    Sound [.window offset size] where
  inRange := List.forall_mem_singleton.2 fun i inside => by omega
  roomy i p found := by
    rw [position?] at found
    split at found
    · next inside =>
      have inside : i < size := inside
      cases found
      show offset + i + 1 < _
      omega
    · cases found

theorem Sound.window (below : region.Sound) {offset size : Nat}
    (small : offset + size < Checked.limit) : Sound (.window offset size :: region) where
  inRange := List.forall_mem_cons.2 ⟨fun i inside => by omega, below.inRange⟩
  roomy i p found := by
    rw [position?] at found
    split at found
    · exact below.roomy _ p found
    · cases found

theorem upholds_write (sound : region.Sound) (i : Nat) (value : Bool) :
    Upholds (fun _ => True) Failure.IsFault (region.write i value) :=
  fun _ _ => ⟨fun _ failed => (outcome_of_fails_write sound.inRange (sound.roomy i) failed).2,
    fun _ _ _ => trivial⟩

theorem upholds_writeNat (sound : region.Sound) (value : Nat) :
    Upholds (fun _ => True) Failure.IsFault (region.writeNat value) :=
  .forRange fun i _ _ => upholds_write sound i _

end Region

namespace Bits

variable {b : Bits}

theorem readable_of_inRange (inRange : ∀ v ∈ b.region, v.InRange) : b.Readable :=
  fun i => ⟨_, b.register.read_eq inRange i⟩

theorem exists_hex (inRange : ∀ v ∈ b.region, v.InRange) {size : Nat} (sized : b.size = .ok size)
    (small : size + 3 < Checked.limit) (prefixed : Bool) : ∃ text, b.hex prefixed = .ok text := by
  obtain ⟨m, shows⟩ := (readable_of_inRange inRange).exists_shows
  obtain rfl := Except.ok.inj (shows.size.symm.trans sized)
  exact ⟨_, shows.hex small prefixed⟩

end Bits

end FsmFabric
