import FsmFabric.Chip.Mux
import FsmFabric.Proofs.Bits
import Mathlib.Data.List.Pairwise

/-!
# Fields that share no bits

A word is written field by field. Where no two fields share a bit, a write that is confined to some
fields leaves every bit of the others as it was.
-/

namespace FsmFabric

open Edit

def Field.Covers (f : Field) (bit : Nat) : Prop := f.offset ≤ bit ∧ bit < f.offset + f.width

instance (f : Field) : DecidablePred f.Covers := fun bit =>
  inferInstanceAs (Decidable (f.offset ≤ bit ∧ bit < f.offset + f.width))

def Field.Apart (f g : Field) : Prop := ∀ bit, f.Covers bit → ¬ g.Covers bit

theorem Field.Apart.symm {f g : Field} (apart : f.Apart g) : g.Apart f :=
  fun bit inG inF => apart bit inF inG

instance : Std.Symm Field.Apart := ⟨fun _ _ apart => apart.symm⟩

theorem Field.apart_iff {f g : Field} :
    f.Apart g ↔ f.width = 0 ∨ g.width = 0 ∨ f.offset + f.width ≤ g.offset ∨
      g.offset + g.width ≤ f.offset := by
  refine ⟨fun apart => ?_, fun order bit inF inG => ?_⟩
  · -- where neither field is empty, the later of the two offsets is a bit to look at
    have first := apart (max f.offset g.offset)
    unfold Covers at first
    omega
  · unfold Covers at inF inG
    omega

instance : DecidableRel Field.Apart := fun _ _ => decidable_of_iff' _ Field.apart_iff

namespace WordLayout

def Disjoint (l : WordLayout) : Prop := l.fields.Pairwise Field.Apart

instance (l : WordLayout) : Decidable l.Disjoint :=
  inferInstanceAs (Decidable (l.fields.Pairwise Field.Apart))

variable {l : WordLayout}

theorem role_of_field? {role : FieldRole} {n : Nat} {f : Field} (found : l.field? role n = some f) :
    f ∈ l.fields ∧ f.role = role := by
  have member := List.mem_of_getElem? found
  rw [ofRole, List.mem_filter, beq_iff_eq] at member
  exact member

theorem Disjoint.apart (disjoint : l.Disjoint) {role role' : FieldRole} {n n' : Nat} {f g : Field}
    (foundF : l.field? role n = some f) (foundG : l.field? role' n' = some g)
    (differ : ¬ (role = role' ∧ n = n')) : f.Apart g := by
  by_cases same : role = role'
  · subst same
    have pairwise : (l.ofRole role).Pairwise Field.Apart :=
      List.Pairwise.sublist List.filter_sublist disjoint
    obtain ⟨ltF, rfl⟩ := List.getElem?_eq_some_iff.1 foundF
    obtain ⟨ltG, rfl⟩ := List.getElem?_eq_some_iff.1 foundG
    rw [List.pairwise_iff_getElem] at pairwise
    rcases Nat.lt_or_gt_of_ne fun equal => differ ⟨rfl, equal⟩ with less | greater
    · exact pairwise n n' ltF ltG less
    · exact (pairwise n' n ltG ltF greater).symm
  · obtain ⟨memberF, rfl⟩ := role_of_field? foundF
    obtain ⟨memberG, rfl⟩ := role_of_field? foundG
    have differs : f ≠ g := fun equal => same (congrArg Field.role equal)
    exact List.Pairwise.forall disjoint memberF memberG differs

/-- Field `n` of a role, in the word that starts at a position, holds certain bits. -/
def Reads (l : WordLayout) (start : Nat) (m : Mask) (role : FieldRole) (n : Nat) (f : Field)
    (value : Nat → Bool) : Prop :=
  l.field? role n = some f ∧ ∀ i, i < f.width → m.get (start + f.offset + i) = value i

def Blank (l : WordLayout) (start : Nat) (m : Mask) (role : FieldRole) (n : Nat) : Prop :=
  ∀ f, l.field? role n = some f → ∀ i, i < f.width → m.get (start + f.offset + i) = false

theorem field?_of_require {role : FieldRole} {n : Nat} {f : Field}
    (required : l.require role n = .ok f) : l.field? role n = some f := by
  unfold require at required
  split at required
  · next found =>
    cases required
    exact found
  · cases required

end WordLayout

namespace Register

variable {l : WordLayout} {start : Nat} {r r' r'' : Register}

/-- All changes lie in certain fields of the word that starts at a position. -/
structure Confined (l : WordLayout) (start : Nat) (fields : FieldRole → Nat → Prop)
    (r r' : Register) : Prop where
  growable : r'.growable = r.growable
  size : r'.mask.size = r.mask.size
  changed : ∀ i, r'.mask.get i ≠ r.mask.get i →
    ∃ role n f, fields role n ∧ l.field? role n = some f ∧ start ≤ i ∧ f.Covers (i - start)

namespace Confined

variable {fields fields' : FieldRole → Nat → Prop}

theorem refl (r : Register) : Confined l start fields r r where
  growable := rfl
  size := rfl
  changed _ differ := absurd rfl differ

theorem mono (confined : Confined l start fields r r')
    (weaker : ∀ role n, fields role n → fields' role n) : Confined l start fields' r r' where
  growable := confined.growable
  size := confined.size
  changed i differ := by
    obtain ⟨role, n, f, touched, rest⟩ := confined.changed i differ
    exact ⟨role, n, f, weaker role n touched, rest⟩

theorem trans (first : Confined l start fields r r') (second : Confined l start fields r' r'') :
    Confined l start fields r r'' where
  growable := second.growable.trans first.growable
  size := second.size.trans first.size
  changed i differ := by
    by_cases same : r''.mask.get i = r'.mask.get i
    · exact first.changed i (same ▸ differ)
    · exact second.changed i same

theorem union (first : Confined l start fields r r') (second : Confined l start fields' r' r'') :
    Confined l start (fun role n => fields role n ∨ fields' role n) r r'' :=
  (first.mono fun _ _ => .inl).trans (second.mono fun _ _ => .inr)

theorem get_eq_of_uncovered (confined : Confined l start fields r r') {i : Nat}
    (uncovered : start ≤ i → ∀ f ∈ l.fields, ¬ f.Covers (i - start)) :
    r'.mask.get i = r.mask.get i := by
  by_contra differ
  obtain ⟨role, n, f, -, found, above, covered⟩ := confined.changed i differ
  exact uncovered above f (WordLayout.role_of_field? found).1 covered

/-- The other fields keep their bits. -/
theorem get_eq (confined : Confined l start fields r r') (disjoint : l.Disjoint)
    {role : FieldRole} {n : Nat} {f : Field} (found : l.field? role n = some f)
    (untouched : ¬ fields role n) {i : Nat} (inside : i < f.width) :
    r'.mask.get (start + f.offset + i) = r.mask.get (start + f.offset + i) := by
  by_contra differ
  obtain ⟨role', n', g, touched, foundG, -, covered⟩ := confined.changed _ differ
  refine disjoint.apart found foundG ?_ _ ?_ covered
  · rintro ⟨rfl, rfl⟩
    exact untouched touched
  · exact ⟨by omega, by omega⟩

theorem reads (confined : Confined l start fields r r') (disjoint : l.Disjoint)
    {role : FieldRole} {n : Nat} {f : Field} {value : Nat → Bool} (untouched : ¬ fields role n)
    (before : l.Reads start r.mask role n f value) : l.Reads start r'.mask role n f value :=
  ⟨before.1, fun i inside =>
    (confined.get_eq disjoint before.1 untouched inside).trans (before.2 i inside)⟩

theorem blank (confined : Confined l start fields r r') (disjoint : l.Disjoint)
    {role : FieldRole} {n : Nat} (untouched : ¬ fields role n)
    (before : l.Blank start r.mask role n) : l.Blank start r'.mask role n :=
  fun f found i inside =>
    (confined.get_eq disjoint found untouched inside).trans (before f found i inside)

end Confined

/-- A patch inside a field. -/
theorem Patched.confined {fields : FieldRole → Nat → Prop} {role : FieldRole} {n : Nat} {f : Field}
    (offset : Nat) {count : Nat} {value : Nat → Bool}
    (patched : r.Patched (start + f.offset + offset) count value r')
    (found : l.field? role n = some f) (touched : fields role n) (fits : offset + count ≤ f.width) :
    Confined l start fields r r' where
  growable := patched.growable
  size := patched.size
  changed i differ := by
    refine ⟨role, n, f, touched, found, ?_, ?_⟩
    · by_contra below
      exact differ (patched.outside i (by omega))
    · by_contra outside
      refine differ (patched.outside i ?_)
      unfold Field.Covers at outside
      omega

/-- A number written into an empty field fills it. -/
theorem Patched.reads {role : FieldRole} {n value : Nat} {f : Field}
    (patched : r.Patched (start + f.offset) (Region.digitCount value) value.testBit r')
    (found : l.field? role n = some f) (blank : l.Blank start r.mask role n) :
    l.Reads start r'.mask role n f value.testBit := by
  refine ⟨found, fun i inside => ?_⟩
  by_cases digit : i < Region.digitCount value
  · exact patched.inside i digit
  · rw [patched.outside _ (by omega), blank f found i inside,
      Region.testBit_of_digitCount_le (Nat.le_of_not_lt digit)]

end Register

/-- The selection of a multiplexer lies inside those of the bank. -/
theorem MuxBank.part_le {bank : MuxBank} {mux : Nat} (inBank : mux < bank.count) :
    mux * bank.selectBits + bank.selectBits ≤ bank.selectBits * bank.count := by
  rw [← Nat.succ_mul, Nat.mul_comm]
  exact Nat.mul_le_mul_left _ inBank

/-- A field that is written holds the low bits of what was written. -/
theorem Field.reads_of_write {l : WordLayout} {start : Nat} {role : FieldRole} {n : Nat} {f : Field}
    {word : Region} {bits : Mask} {r r' : Register} {a : Unit} (starts : word.Starts start)
    (fixed : r.growable = false) (run : Runs (f.write word bits) r a r')
    (found : l.field? role n = some f) :
    l.Reads start r'.mask role n f bits.get ∧
      r.Confined l start (fun role' n' => role' = role ∧ n' = n) r' := by
  obtain ⟨-, patched⟩ : f.width ≤ f.width ∧ r.Patched (start + f.offset) f.width bits.get r' := by
    refine Region.patched_of_loop fixed (runs_mapError.1 run) fun i q q' lt fixed done => ?_
    exact ⟨lt, Region.patched_of_write (starts.window f.offset f.width) fixed done⟩
  exact ⟨⟨found, patched.inside⟩,
    Register.Patched.confined 0 patched found ⟨rfl, rfl⟩ (by omega)⟩

end FsmFabric
