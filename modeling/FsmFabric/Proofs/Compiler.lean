import FsmFabric.Proofs.Fabric.Step
import FsmFabric.Proofs.Placement

/-!
# What a compiled image holds

Every word is written once, while it is still empty, and no other write touches it. So in the end
each word of a declared state does what its entry says.
-/

namespace FsmFabric

open Edit

namespace Image

variable {image image' image'' : Image}

def BlankWord (image : Image) (k : Nat) : Prop :=
  image.word k = .ok (Mask.ofFun image.layout.width fun _ => false)

structure Keeps (image image' : Image) (changed : Nat → Prop) : Prop where
  layout : image'.layout = image.layout
  muxes : image'.muxes = image.muxes
  word : ∀ k, k < image.layout.words → ¬ changed k → image'.word k = image.word k

namespace Keeps

variable {changed changed' : Nat → Prop}

theorem refl (image : Image) : image.Keeps image changed := ⟨rfl, rfl, fun _ _ _ => rfl⟩

theorem mono (keeps : image.Keeps image' changed) (weaker : ∀ k, changed k → changed' k) :
    image.Keeps image' changed' :=
  ⟨keeps.layout, keeps.muxes, fun k lt kept => keeps.word k lt fun h => kept (weaker k h)⟩

theorem trans (first : image.Keeps image' changed) (second : image'.Keeps image'' changed) :
    image.Keeps image'' changed where
  layout := second.layout.trans first.layout
  muxes := second.muxes.trans first.muxes
  word k lt kept := (second.word k (first.layout ▸ lt) kept).trans (first.word k lt kept)

theorem hosts {f : Fabric} (keeps : image.Keeps image' changed) (hosts : f.Hosts image) :
    f.Hosts image' where
  regular := hosts.regular
  bank := keeps.muxes.trans hosts.bank
  sound := keeps.layout ▸ hosts.sound
  disjoint := keeps.layout ▸ hosts.disjoint
  inc := keeps.layout ▸ hosts.inc

variable {k : Nat} (keeps : image.Keeps image' changed) (lt : k < image.layout.words)
  (kept : ¬ changed k)

include keeps lt kept

theorem blankWord (blank : image.BlankWord k) : image'.BlankWord k := by
  rw [BlankWord, keeps.word k lt kept, keeps.layout]
  exact blank

theorem fieldOf_eq (role : FieldRole) (n : Nat) :
    Fabric.fieldOf image' k role n = Fabric.fieldOf image k role n := by
  simp only [Fabric.fieldOf, field?, keeps.layout, keeps.word k lt kept]

theorem fires_eq (f : Fabric) (x : Nat → Bool) (n : Nat) :
    f.fires image' x k n = f.fires image x k n := by
  have selection (mux : Nat) : image'.selection? k mux = image.selection? k mux := by
    simp only [selection?, keeps.layout, keeps.muxes, keeps.word k lt kept]
  simp only [Fabric.fires, Fabric.selectedRow, Fabric.pinValue, selection,
    fieldOf_eq keeps lt kept]

/-- A word that is kept goes on doing what it does. -/
theorem carries {f : Fabric} {slots : IdMap Nat} {e : StateEntry}
    (carries : f.Carries image slots k e) : f.Carries image' slots k e where
  fits := carries.fits
  fires x n guard := (fires_eq keeps lt kept f x n).trans (carries.fires x n guard)
  move n t found guard := by
    simp only [Fabric.moveOf, fieldOf_eq keeps lt kept, keeps.layout]
    exact carries.move n t found guard
  rest t found := by
    simp only [fieldOf_eq keeps lt kept, keeps.layout]
    exact carries.rest t found
  inc := by
    simp only [fieldOf_eq keeps lt kept, keeps.layout]
    exact carries.inc
  continued := by
    rw [keeps.layout]
    exact carries.continued

end Keeps

/-- What is confined to the fields of a word changes only that word. -/
theorem keeps_of_confined (sound : image.layout.Sound) {slot : Nat}
    (inside : slot < image.layout.words) {fields : FieldRole → Nat → Prop} {r : Register}
    (confined : (Register.mk false image.bits).Confined image.layout (image.layout.startOf slot)
      fields r) : image.Keeps { image with bits := r.mask } (· = slot) := by
  refine ⟨rfl, rfl, fun k lt other => ?_⟩
  have after : Image.word { image with bits := r.mask } k =
      .ok (r.mask.extract (image.layout.startOf k) image.layout.width) := word_eq sound.small lt
  rw [word_eq sound.small lt, after]
  refine congrArg Except.ok (Mask.ofFun_congr fun i within => ?_)
  by_contra differ
  obtain ⟨role, n, field, -, found, low, covered⟩ := confined.changed _ differ
  have fits := sound.inside field (WordLayout.role_of_field? found).1
  have high := covered.2
  rcases Nat.lt_or_gt_of_ne other with before | after
  · have := WordLayout.startOf_apart before inside
    omega
  · have := WordLayout.startOf_apart after lt
    omega

theorem BlankWord.field (sound : image.layout.Sound) {k : Nat} (lt : k < image.layout.words)
    (blank : image.BlankWord k) (role : FieldRole) (n : Nat) :
    image.layout.Blank (image.layout.startOf k) image.bits role n := by
  intro field found i inside
  have fits := sound.inside field (WordLayout.role_of_field? found).1
  rw [BlankWord, word_eq sound.small lt] at blank
  have zero := congrArg (·.get (field.offset + i)) (Except.ok.inj blank)
  simp only [Mask.get_extract, Mask.get_ofFun, Bool.and_false] at zero
  rw [decide_eq_true (by omega), Bool.true_and, ← Nat.add_assoc] at zero
  exact zero

theorem wordRegion_eq_ok (small : image.layout.words * image.layout.width < Checked.limit)
    {slot : Nat} {region : Region} (found : image.wordRegion slot = .ok region) :
    slot < image.layout.words ∧
      region = [.window (image.layout.startOf slot) image.layout.width] := by
  unfold wordRegion at found
  split at found
  · next lt =>
    rw [WordLayout.wordOffset_eq small lt] at found
    exact ⟨lt, (Except.ok.inj found).symm⟩
  · cases found

end Image

namespace Compilation

variable {f : Fabric} {c c' : Compilation} {v : Unit} {slot : Nat} {e : StateEntry}

/-- Writing an empty word changes only that word, and if the state of the entry has a word, it does
what the entry says. -/
theorem carries_of_writeWord (hosts : f.Hosts c.image) (run : Runs (writeWord f slot e) c v c')
    (blank : slot < c.image.layout.words → c.image.BlankWord slot) :
    slot < c.image.layout.words ∧ c.image.Keeps c'.image (· = slot) ∧
      (c.slots.find? e.id ≠ none →
        c'.slots = c.slots ∧ f.Carries c'.image c.slots slot e) := by
  have run := runs_get_bind.1 run
  obtain ⟨region, located, run⟩ := runs_ofFault_bind.1 run
  obtain ⟨lt, rfl⟩ := Image.wordRegion_eq_ok hosts.sound.small located
  obtain ⟨a, assembled, rfl⟩ := runs_zoom.1 run
  have starts : Region.Starts [.window (c.image.layout.startOf slot) c.image.layout.width]
      (c.image.layout.startOf slot) := by
    have starts := Region.starts_nil.window (c.image.layout.startOf slot) c.image.layout.width
    rwa [Nat.zero_add] at starts
  obtain ⟨confined, content⟩ := Fabric.assembled_of_assemble starts hosts.disjoint
    hosts.regular.driven hosts.inc assembled rfl ((blank lt).field hosts.sound lt)
  have keeps := Image.keeps_of_confined hosts.sound lt confined
  refine ⟨lt, keeps, fun known => ⟨(content known).1, ?_⟩⟩
  exact Fabric.carries_of_assembled (keeps.hosts hosts) lt (content known).2

/-- Every written word does what its entry says. -/
theorem carries_of_writeWords {entries : List StateEntry} (hosts : f.Hosts c.image)
    (run : Runs (writeWords f slot entries) c v c')
    (blank : ∀ k, slot ≤ k → k < c.image.layout.words → c.image.BlankWord k)
    (known : ∀ e ∈ entries, c.slots.find? e.id ≠ none) :
    c.image.Keeps c'.image (fun k => slot ≤ k ∧ k < slot + entries.length) ∧
      c'.slots = c.slots ∧
      ∀ (k : Nat) (e : StateEntry), entries[k]? = some e →
        slot + k < c.image.layout.words ∧ f.Carries c'.image c.slots (slot + k) e := by
  induction entries generalizing c slot with
  | nil =>
    obtain ⟨-, rfl⟩ := runs_pure.1 run
    exact ⟨.refl _, rfl, fun k e found => by simp at found⟩
  | cons e rest ih =>
    obtain ⟨_, c₁, here, run⟩ := runs_bind.1 run
    obtain ⟨lt, keeps₁, content⟩ := carries_of_writeWord hosts here (blank slot le_rfl)
    obtain ⟨slots₁, carries₁⟩ := content (known e List.mem_cons_self)
    have blank₁ : ∀ k, slot + 1 ≤ k → k < c₁.image.layout.words → c₁.image.BlankWord k :=
      fun k later inside => keeps₁.blankWord (keeps₁.layout ▸ inside) (by omega)
        (blank k (by omega) (keeps₁.layout ▸ inside))
    obtain ⟨keeps₂, slots₂, carries₂⟩ := ih (keeps₁.hosts hosts) run blank₁
      (slots₁ ▸ fun e member => known e (List.mem_cons_of_mem _ member))
    refine ⟨(keeps₁.mono fun k same => ?_).trans (keeps₂.mono fun k between => ?_),
      slots₂.trans slots₁, fun k e' found => ?_⟩
    · rw [List.length_cons]
      omega
    · rw [List.length_cons]
      omega
    · cases k with
      | zero =>
        cases found
        exact ⟨lt, keeps₂.carries (keeps₁.layout ▸ lt) (by omega) carries₁⟩
      | succ k =>
        rw [Nat.add_comm k 1, ← Nat.add_assoc, ← slots₁, ← keeps₁.layout]
        exact carries₂ k e' (by simpa using found)

/-- Words that no declared state occupies are written without a change to the others. -/
theorem keeps_of_fillWords {b : Builder} {count : Nat} (hosts : f.Hosts c.image)
    (run : Runs (fillWords f b slot count) c v c')
    (blank : ∀ k, slot ≤ k → k < c.image.layout.words → c.image.BlankWord k) :
    c.image.Keeps c'.image (slot ≤ ·) := by
  induction count generalizing c slot with
  | zero =>
    obtain ⟨-, rfl⟩ := runs_pure.1 run
    exact .refl _
  | succ count ih =>
    obtain ⟨_, c₁, here, run⟩ := runs_bind.1 run
    obtain ⟨-, keeps₁, -⟩ := carries_of_writeWord hosts here (blank slot le_rfl)
    have keeps₂ := ih (keeps₁.hosts hosts) run fun k later inside =>
      keeps₁.blankWord (keeps₁.layout ▸ inside) (by omega)
        (blank k (by omega) (keeps₁.layout ▸ inside))
    exact (keeps₁.mono fun k same => same.ge).trans (keeps₂.mono fun k later => by omega)

theorem runs_prepare {b : Builder} (run : Runs (prepare f b) c v c') :
    (Placement.ofBuilder b f.guards).entries.length ≤ c.image.layout.words ∧
      c' = { c with
        image := { c.image with control := b.control.toNat }
        slots := (Placement.ofBuilder b f.guards).slots } := by
  have run := runs_modify_bind.1 run
  have run := runs_get_bind.1 run
  simp only at run
  split at run
  · obtain ⟨_, _, refused, -⟩ := runs_bind.1 run
    exact absurd refused runs_refuse
  · next enough =>
    exact ⟨Nat.le_of_not_lt enough, (runs_modify.1 run).symm⟩

/-- In the end every word of a declared state does what its entry says. -/
theorem carries_of_writeMachine {b : Builder} (hosts : f.Hosts c.image)
    (run : Runs (writeMachine f b) c v c')
    (blank : ∀ k, k < c.image.layout.words → c.image.BlankWord k) :
    c'.image.layout = c.image.layout ∧ f.Hosts c'.image ∧
      ∀ (word : Nat) (e : StateEntry),
        (Placement.ofBuilder b f.guards).entries[word]? = some e →
          word < c.image.layout.words ∧
            f.Carries c'.image (Placement.ofBuilder b f.guards).slots word e := by
  obtain ⟨_, c₀, prepared, run⟩ := runs_bind.1 run
  obtain ⟨-, rfl⟩ := runs_prepare prepared
  have run := runs_get_bind.1 run
  obtain ⟨_, c₁, declared, run⟩ := runs_bind.1 run
  have hosts₀ : f.Hosts { c.image with control := b.control.toNat } :=
    ⟨hosts.regular, hosts.bank, hosts.sound, hosts.disjoint, hosts.inc⟩
  obtain ⟨keeps₁, -, carries⟩ := carries_of_writeWords hosts₀ declared
    (fun k _ inside => blank k inside)
    (Placement.consistent_ofBuilder b hosts.regular.guards_pos).known
  have hosts₁ := keeps₁.hosts hosts₀
  have keeps₂ := keeps_of_fillWords hosts₁ run fun k later inside =>
    keeps₁.blankWord (keeps₁.layout ▸ inside) (by omega) (blank k (keeps₁.layout ▸ inside))
  refine ⟨keeps₂.layout.trans keeps₁.layout, keeps₂.hosts hosts₁, fun word e found => ?_⟩
  obtain ⟨lt, carries⟩ := carries word e found
  obtain ⟨placed, -⟩ := List.getElem?_eq_some_iff.1 found
  rw [Nat.zero_add] at lt carries
  exact ⟨lt, keeps₂.carries (keeps₁.layout ▸ lt) (by omega) carries⟩

section Sequence

variable (f : Fabric) (b : Builder)

theorem writeWords_append (slot : Nat) (entries rest : List StateEntry) :
    writeWords f slot (entries ++ rest) = (do
      writeWords f slot entries
      writeWords f (slot + entries.length) rest) := by
  induction entries generalizing slot with
  | nil => rw [List.nil_append, writeWords, pure_bind, List.length_nil, Nat.add_zero]
  | cons e entries ih =>
    rw [List.cons_append, writeWords, writeWords, bind_assoc, ih, List.length_cons,
      Nat.add_assoc, Nat.add_comm 1]

theorem fillWords_eq (slot count : Nat) :
    fillWords f b slot count = writeWords f slot ((List.range' slot count).map b.spareEntry) := by
  induction count generalizing slot with
  | zero => rfl
  | succ count ih => rw [fillWords, List.range'_succ, List.map_cons, writeWords, ih]

/-- A machine is written word by word. -/
theorem writeMachine_eq :
    writeMachine f b = (do
      prepare f b
      writeWords f 0 (b.wordEntries f.guards (← get).image.layout.words)) := by
  simp only [Builder.wordEntries, writeWords_append, ← fillWords_eq, Nat.zero_add]
  rfl

end Sequence

end Compilation

namespace Session

variable {s : Session} {b : Builder} {image : Image}

theorem of_blankImage (started : s.blankImage = .ok image) :
    image.layout = s.chip.layout ∧ image.muxes = s.chip.muxes ∧
      (∃ bits, s.chip.layout.imageBits = .ok bits) ∧ ∀ i, image.bits.get i = false := by
  obtain ⟨blank, made, started⟩ := bind_eq_ok.1 started
  obtain ⟨bits, sized, made⟩ := bind_eq_ok.1 made
  cases made
  cases started
  exact ⟨rfl, rfl, ⟨bits, sized⟩, Mask.get_blank bits⟩

/-- A compiled image hosts the fabric of its chip, and every word of a declared state does what its
entry says. -/
theorem carries_of_compile (valid : s.chip.validate = .ok ()) (disjoint : s.chip.layout.Disjoint)
    (wide : ∀ inc, s.chip.layout.field? .inc 0 = some inc → 0 < inc.width)
    (compiled : s.compile b = .ok image) :
    ∃ f, Fabric.ofChip s.chip = .ok f ∧ image.layout = s.chip.layout ∧ f.Hosts image ∧
      ∀ (word : Nat) (e : StateEntry),
        (Placement.ofBuilder b f.guards).entries[word]? = some e →
          word < image.layout.words ∧
            f.Carries image (Placement.ofBuilder b f.guards).slots word e := by
  unfold compile run at compiled
  split at compiled
  · cases compiled
  · next f blank ready =>
    obtain ⟨g, built, ready⟩ := bind_eq_ok.1 ready
    obtain ⟨start, started, ready⟩ := bind_eq_ok.1 ready
    cases ready
    split at compiled
    · cases compiled
    · next c done =>
      cases compiled
      obtain ⟨layout, muxes, ⟨_, sized⟩, zero⟩ := of_blankImage (liftM_eq_ok.1 started)
      have sound : blank.layout.Sound := layout ▸ Chip.sound_of_validate valid sized
      obtain ⟨regular, bank⟩ := Fabric.regular_of_validate valid built
      have hosts : f.Hosts blank :=
        ⟨regular, muxes.trans bank.symm, sound, layout ▸ disjoint, layout ▸ wide⟩
      obtain ⟨same, hosts', carries⟩ := Compilation.carries_of_writeMachine hosts done
        fun k lt => (Image.word_eq sound.small lt).trans
          (congrArg Except.ok (Mask.ofFun_congr fun i _ => zero _))
      exact ⟨f, built, same.trans layout, hosts', same ▸ carries⟩

end Session

end FsmFabric
