import FsmFabric.Proofs.Bits.Enumeration
import FsmFabric.Proofs.Mask.Codec

/-!
# Registers under any history of changes

A register is made in one of a few ways and then changed bit by bit, by operations that may stop half
way. The search and the count of set bits, which work on whole words, rely on tidy storage. Here it is
followed through all ways of making and changing a register, together with the size, which only
grows, and only where growing is allowed. A bit past the old end is set afterwards only if the
operation has set it. The check of a stored pair of size and words accepts exactly what such a
history can leave behind.
-/

namespace FsmFabric

open Edit

/-! ## Copies -/

theorem Bits.size_snapshot {b : Bits} {size : Nat} {m : Mask} (sized : b.size = .ok size)
    (copied : b.snapshot = .ok m) : m.size = size := by
  obtain ⟨_, same, copied⟩ := bind_eq_ok.1 copied
  obtain rfl := Except.ok.inj (sized.symm.trans same)
  obtain ⟨ones, listed, copied⟩ := bind_eq_ok.1 copied
  cases copied
  obtain ⟨n, shows, rfl⟩ := exists_shows_of_ones listed
  obtain rfl := Except.ok.inj (sized.symm.trans shows.size)
  exact Mask.size_ofOnes fun i member => Mask.lt_size_of_get (Mask.mem_ones.1 member)

theorem Bits.size_extract {b : Bits} {offset width : Nat} {m : Mask}
    (copied : b.extract offset width = .ok m) : m.size = width := by
  obtain ⟨bits, -, copied⟩ := bind_eq_ok.1 copied
  cases copied
  exact Mask.size_ofFun _ _

/-! ## What a write can do -/

namespace Register

/-- The register `old` has become `new` by writes that set bits at certain positions only. -/
structure Grown (ones : Nat → Prop) (old new : Register) : Prop where
  growable : new.growable = old.growable
  size_le : old.mask.size ≤ new.mask.size
  size_eq : old.growable = false → new.mask.size = old.mask.size
  inRange : old.mask.size < Checked.limit → new.mask.size < Checked.limit
  set : ∀ i, new.mask.get i = true → old.mask.get i = true ∨ ones i

namespace Grown

variable {ones ones' : Nat → Prop} {old mid new : Register}

theorem refl (ones : Nat → Prop) (r : Register) : r.Grown ones r :=
  ⟨rfl, le_rfl, fun _ => rfl, fun small => small, fun _ => .inl⟩

theorem mono (grown : old.Grown ones new) (more : ∀ i, ones i → ones' i) : old.Grown ones' new where
  growable := grown.growable
  size_le := grown.size_le
  size_eq := grown.size_eq
  inRange := grown.inRange
  set i set := (grown.set i set).imp_right (more i)

theorem trans (first : old.Grown ones mid) (second : mid.Grown ones new) : old.Grown ones new where
  growable := second.growable.trans first.growable
  size_le := first.size_le.trans second.size_le
  size_eq fixed := (second.size_eq (first.growable.trans fixed)).trans (first.size_eq fixed)
  inRange small := second.inRange (first.inRange small)
  set i set := (second.set i set).elim (first.set i) .inr

end Grown

variable {ones : Nat → Prop} {r : Register}

theorem locate_plain {i position : Nat} (located : r.locate [] i = .ok position) : position = i := by
  cases growable : r.growable with
  | false => exact ((locate_fixed growable).1 located).2.symm
  | true => exact locate_growable growable located

theorem grown_put {i : Nat} {value : Bool} (located : r.locate [] i = .ok i)
    (sets : value = true → ones i) : r.Grown ones { r with mask := r.mask.put i value } := by
  have bits (j : Nat) (set : (r.mask.put i value).get j = true) : r.mask.get j = true ∨ ones j := by
    rw [Mask.get_put] at set
    split at set
    · next same => exact .inr (same ▸ sets set)
    · exact .inl set
  cases growable : r.growable with
  | false =>
    have inside := ((locate_fixed growable).1 located).1
    have size : (r.mask.put i value).size = r.mask.size := by
      rw [Mask.size_put]
      omega
    exact ⟨growable ▸ rfl, size.ge, fun _ => size, fun small => by rwa [size], bits⟩
  | true =>
    have next := ((locate_growable_iff growable).1 located).1
    have size := r.mask.size_put i value
    refine ⟨growable ▸ rfl, ?_, fun fixed => ?_, fun small => ?_, bits⟩
    · show _ ≤ (r.mask.put i value).size
      omega
    · rw [growable] at fixed
      cases fixed
    · show (r.mask.put i value).size < _
      omega

theorem grown_grow {count : Nat} (growable : r.growable = true) (small : count < Checked.limit) :
    r.Grown ones { r with mask := r.mask.grow count } := by
  have size := r.mask.size_grow count
  refine ⟨rfl, ?_, fun fixed => ?_, fun inRange => ?_, fun i set => .inl ?_⟩
  · show _ ≤ (r.mask.grow count).size
    omega
  · rw [growable] at fixed
    cases fixed
  · show (r.mask.grow count).size < _
    omega
  · rwa [Mask.get_grow] at set

end Register

/-! ## Loops -/

namespace Region

variable {inv : Register → Prop}

private theorem maintains_forOnes_go {source : Bits} {visit : Nat → BitEdit Unit} {size : Nat}
    (sized : source.size = .ok size)
    (each : ∀ i, source.get i = .ok true → Maintains inv (visit i)) (left : Nat) {i : Nat}
    (set : i < size → source.get i = .ok true) :
    Maintains inv (forOnes.go source visit size left i) := by
  induction left generalizing i with
  | zero => exact .pure ()
  | succ left ih =>
    unfold forOnes.go
    split
    · next inside =>
      apply (each i (set inside)).bind
      intro _
      apply Maintains.ofFault_bind
      intro k found
      exact ih fun inside => ((Bits.firstFrom_of_next sized found).set inside).2
    · exact .pure ()

/-- A visit to the set bits of other bits may rely on their being set. -/
theorem maintains_forOnes {source : Bits} {visit : Nat → BitEdit Unit}
    (each : ∀ i, source.get i = .ok true → Maintains inv (visit i)) :
    Maintains inv (forOnes source visit) := by
  apply Maintains.ofFault_bind
  intro first found
  apply Maintains.ofFault_bind
  intro size sized
  exact maintains_forOnes_go sized each size fun inside =>
    ((Bits.firstFrom_of_first sized found).set inside).2

theorem maintains_sweep {region : Region} {visit : Nat → BitEdit Unit}
    (each : ∀ i, Maintains inv (visit i)) : Maintains inv (region.sweep visit) := by
  have visits (left i : Nat) : Maintains inv (sweep.go region visit left i) := by
    induction left generalizing i with
    | zero => exact .pure ()
    | succ left ih =>
      apply Maintains.get_bind
      intro before
      apply Maintains.ofFault_bind
      intro size _
      split
      · apply (each i).bind
        intro _
        apply Maintains.get_bind
        intro after
        apply Maintains.ofFault_bind
        intro k _
        exact ih k
      · exact .pure ()
  apply Maintains.get_bind
  intro start
  apply Maintains.ofFault_bind
  intro first _
  apply Maintains.ofFault_bind
  intro size _
  exact visits size first

end Region

/-! ## Changes -/

/-- An operation on the bits of a register. The other bits that it reads may be seen through
views. -/
inductive Change where
  | write (i : Nat) (value : Bool)
  | resize (count : Nat)
  | reset
  | writeNat (value : Nat)
  | copyFrom (source : Bits)
  | copyOnes (source : Bits)
  | unionWith (other : Bits)
  | intersectWith (other : Bits)
  | setUnion (a b : Bits)
  | setIntersection (a b : Bits)

namespace Change

def act : Change → BitEdit Unit
  | write i value => Region.write [] i value
  | resize count => Region.resize [] count
  | reset => Region.reset []
  | writeNat value => Region.writeNat [] value
  | copyFrom source => Region.copyFrom [] source
  | copyOnes source => Region.copyOnes [] source
  | unionWith other => Region.unionWith [] other
  | intersectWith other => Region.intersectWith [] other
  | setUnion a b => Region.setUnion [] a b
  | setIntersection a b => Region.setIntersection [] a b

def Sets : Change → Nat → Prop
  | write i value, j => j = i ∧ value = true
  | writeNat value, j => value.testBit j = true
  | copyFrom source, j | copyOnes source, j | unionWith source, j => source.get j = .ok true
  | setUnion a b, j => a.get j = .ok true ∨ b.get j = .ok true
  | setIntersection a b, j => a.get j = .ok true ∧ b.get j = .ok true
  | resize _, _ | reset, _ | intersectWith _, _ => False

def InRange : Change → Prop
  | resize count => count < Checked.limit
  | _ => True

end Change

namespace Register

variable {ones : Nat → Prop} {r : Register}

theorem maintains_write {i : Nat} {value : Bool} (sets : value = true → ones i) :
    Maintains (r.Grown ones) (Region.write [] i value) := by
  apply Region.maintains_of_put
  intro s position grown located
  obtain rfl := locate_plain located
  exact grown.trans (grown_put located sets)

theorem outcome_resize (s : Register) (count : Nat) :
    ((Region.resize [] count).outcome s).2 =
      if s.mask.size < count ∧ s.growable = true then { s with mask := s.mask.grow count }
      else s := by
  show ((if s.mask.size < count then if s.growable then set { s with mask := s.mask.grow count }
    else Edit.refuse (.outOfBounds count s.mask.size) else pure () : BitEdit Unit).outcome s).2 = _
  by_cases short : s.mask.size < count
  · cases growable : s.growable with
    | true =>
      rw [if_pos short, if_pos rfl, if_pos ⟨short, rfl⟩]
      rfl
    | false =>
      rw [if_pos short, if_neg Bool.false_ne_true, if_neg fun both => Bool.false_ne_true both.2]
      rfl
  · rw [if_neg short, if_neg fun both => short both.1]
    rfl

/-- An operation sets no other bits than those it is meant to set, also when it fails. -/
theorem maintains_act {c : Change} (inRange : c.InRange) : Maintains (r.Grown c.Sets) c.act := by
  have clear (i : Nat) : Maintains (r.Grown c.Sets) (Region.write [] i false) :=
    maintains_write fun set => by cases set
  cases c with
  | write i value => exact maintains_write fun set => ⟨rfl, set⟩
  | resize count =>
    intro s grown
    rw [Change.act, outcome_resize]
    split
    · next allowed => exact grown.trans (grown_grow allowed.2 inRange)
    · exact grown
  | reset => exact Region.maintains_sweep clear
  | writeNat value => exact .forRange _ _ fun i => maintains_write id
  | copyFrom source =>
    apply Maintains.ofFault_bind
    intro size _
    apply Maintains.forRange
    intro i
    apply Maintains.ofFault_bind
    intro value read
    exact maintains_write fun set => read.trans (congrArg Except.ok set)
  | copyOnes source | unionWith source =>
    exact Region.maintains_forOnes fun i set => maintains_write fun _ => set
  | intersectWith other =>
    apply Region.maintains_sweep
    intro i
    apply Maintains.ofFault_bind
    intro value _
    split
    · exact clear i
    · exact .pure ()
  | setUnion a b =>
    apply (Region.maintains_sweep clear).bind
    intro _
    apply (Region.maintains_forOnes fun i set => maintains_write fun _ => .inr set).bind
    intro _
    exact Region.maintains_forOnes fun i set => maintains_write fun _ => .inl set
  | setIntersection a b =>
    apply (Region.maintains_sweep clear).bind
    intro _
    apply Region.maintains_forOnes
    intro i set
    apply Maintains.ofFault_bind
    intro value read
    split
    · next common => exact maintains_write fun _ => ⟨set, common ▸ read⟩
    · exact .pure ()

theorem grown_act (r : Register) {c : Change} (inRange : c.InRange) :
    r.Grown c.Sets (c.act.outcome r).2 :=
  maintains_act inRange r (.refl c.Sets r)

/-! ## Histories -/

/-- The ways to make a register, with sizes in range. -/
inductive Made : Register → Prop
  | blank (growable : Bool) {size : Nat} (small : size < Checked.limit) :
      Made ⟨growable, Mask.blank size⟩
  | low (value : Nat) {width : Nat} (small : width < Checked.limit) :
      Made ⟨true, Mask.ofNat value width⟩
  | number {value width : Nat} {r : Register} (small : width < Checked.limit)
      (fits : Register.ofNat value width = .ok r) : Made r
  | copy {b : Bits} {size : Nat} {m : Mask} (sized : b.size = .ok size)
      (small : size < Checked.limit) (copied : b.snapshot = .ok m) : Made ⟨true, m⟩
  | binary {text : String} {m : Mask} (small : text.length < Checked.limit)
      (read : Mask.ofBinary? text = some m) : Made ⟨true, m⟩
  | extract {b : Bits} {offset width : Nat} {m : Mask} (small : width < Checked.limit)
      (copied : b.extract offset width = .ok m) : Made ⟨false, m⟩
  | decoded (growable : Bool) {j : Json} {m : Mask} (read : Mask.ofJson j = .ok m) :
      Made ⟨growable, m⟩

theorem size_of_ofNat {value width : Nat} {r : Register} (fits : ofNat value width = .ok r) :
    r.mask.size = width := by
  unfold ofNat at fits
  split at fits
  · next written =>
    cases fits
    have grown := grown_act ⟨false, Mask.blank width⟩ (c := .writeNat value) trivial
    rw [Change.act, written] at grown
    exact grown.size_eq rfl
  · cases fits

theorem size_of_ofBinary? {text : String} {m : Mask} (read : Mask.ofBinary? text = some m) :
    m.size = text.length := by
  unfold Mask.ofBinary? at read
  dsimp only at read
  split at read
  · cases read
    rw [Mask.size_ofFun, List.length_reverse, String.length_toList]
  · cases read

theorem Made.size_lt {r : Register} (made : Made r) : r.mask.size < Checked.limit := by
  cases made with
  | blank growable small => exact small
  | low value small => rwa [Mask.ofNat, Mask.size_ofFun]
  | number small fits => rwa [size_of_ofNat fits]
  | copy sized small copied => rwa [Bits.size_snapshot sized copied]
  | binary small read => rwa [size_of_ofBinary? read]
  | extract small copied => rwa [Bits.size_extract copied]
  | decoded growable read => exact Mask.inverts_codec.range _ _ read

/-- The register after a history of changes, failed ones included. -/
def after (r : Register) (changes : List Change) : Register :=
  changes.foldl (fun r c => (c.act.outcome r).2) r

theorem grown_after (r : Register) {changes : List Change} (inRange : ∀ c ∈ changes, c.InRange) :
    r.Grown (fun i => ∃ c ∈ changes, c.Sets i) (r.after changes) := by
  induction changes generalizing r with
  | nil => exact .refl _ r
  | cons c rest ih =>
    obtain ⟨here, later⟩ := List.forall_mem_cons.1 inRange
    have first := (grown_act r here).mono fun i sets =>
      (⟨c, List.mem_cons_self, sets⟩ : ∃ c' ∈ c :: rest, c'.Sets i)
    refine first.trans ((ih _ later).mono fun i ⟨c', member, sets⟩ => ?_)
    exact ⟨c', List.mem_cons_of_mem c member, sets⟩

/-- However a register is made and changed, its storage is tidy, it has only grown, and neither the
history nor any next change sets a bit that it is not meant to set. Written down it is read back word
for word, and the storages that can be read are exactly the tidy ones. -/
theorem storage_stays_tidy {r : Register} (made : Made r) {changes : List Change}
    (inRange : ∀ c ∈ changes, c.InRange) :
    (r.after changes).mask.storage.Tidy ∧
    r.Grown (fun i => ∃ c ∈ changes, c.Sets i) (r.after changes) ∧
    (∀ c : Change, c.InRange →
      (r.after changes).Grown c.Sets (c.act.outcome (r.after changes)).2) ∧
    Mask.ofJson (r.after changes).mask.toJson = .ok (r.after changes).mask ∧
    ∀ s : Storage, s.size < Checked.limit →
      ((∃ m, Mask.ofJson s.toJson = .ok m) ↔ s.Tidy) ∧
      (∀ m, Mask.ofJson s.toJson = .ok m ↔ m.storage = s) ∧
      (¬ s.Tidy → Mask.ofJson s.toJson = .error (.mask (.malformed s.size s.words.size))) := by
  have grown := r.grown_after inRange
  refine ⟨(r.after changes).mask.tidy, grown, fun c => (r.after changes).grown_act,
    Mask.inverts_codec.read _ (grown.inRange made.size_lt), fun s small => ⟨?_, ?_, ?_⟩⟩
  · exact Mask.exists_ofJson_storage small
  · exact fun m => Mask.ofJson_storage_eq_ok small
  · exact Mask.ofJson_storage_of_not_tidy small

/-- Grows a register over two word boundaries. The write to the last position of all cannot grow it,
and a fixed register refuses the first three changes and the last digit of the number. -/
def scattered : List Change :=
  [.write 70 true, .resize 130, .write (Checked.limit - 1) true, .writeNat 0x1ff]

theorem storage_stays_tidy_scattered :
    (after ⟨true, Mask.blank 60⟩ scattered).mask.storage = ⟨130, #[0x1ff, 64, 0]⟩ ∧
      (after ⟨true, Mask.blank 60⟩ scattered).mask.storage.Tidy ∧
      (after ⟨false, Mask.blank 8⟩ scattered).mask.storage = ⟨8, #[0xff]⟩ ∧
      (after ⟨false, Mask.blank 8⟩ scattered).mask.storage.Tidy ∧
      Mask.ofJson (after ⟨false, Mask.blank 8⟩ scattered).mask.toJson =
        .ok (after ⟨false, Mask.blank 8⟩ scattered).mask := by
  have inRange : ∀ c ∈ scattered, c.InRange := by
    simp [scattered, Change.InRange, Checked.limit, UInt64.size]
  obtain ⟨growing, -⟩ := storage_stays_tidy (.blank true (by decide : 60 < Checked.limit)) inRange
  obtain ⟨fixed, -, -, back, -⟩ :=
    storage_stays_tidy (.blank false (by decide : 8 < Checked.limit)) inRange
  exact ⟨by decide +kernel, growing, by decide +kernel, fixed, back⟩

end Register

end FsmFabric
