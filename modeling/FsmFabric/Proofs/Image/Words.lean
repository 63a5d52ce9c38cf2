import FsmFabric.Proofs.Bits.Span
import FsmFabric.Proofs.Image

/-!
# An image is an array of words

The words of an image are written through views of one long mask. Whatever is done to one word, and
whether it succeeds or stops half way, the other words keep their bits. So after any history of
changes, each word is what its own changes made of it.
-/

namespace FsmFabric

open Edit

/-- A vector of bits that can be read, and the mask that it shows. -/
structure Bits.Source where
  bits : Bits
  mask : Mask
  shows : bits.Shows mask

inductive WordOp where
  | write (bit : Nat) (value : Bool)
  | reset
  | writeNat (value : Nat)
  | copyFrom (source : Bits.Source)
  | copyOnes (source : Bits.Source)

namespace WordOp

def on (region : Region) : WordOp → BitEdit Unit
  | write bit value => region.write bit value
  | reset => region.reset
  | writeNat value => region.writeNat value
  | copyFrom source => region.copyFrom source.bits
  | copyOnes source => region.copyOnes source.bits

/-- The bits that the change assigns to a word, in this order. -/
def assignments (word : Mask) : WordOp → List (Nat × Bool)
  | write bit value => [(bit, value)]
  | reset => word.ones.map fun i => (i, false)
  | writeNat value => (List.range (Region.digitCount value)).map fun i => (i, value.testBit i)
  | copyFrom source => (List.range source.mask.size).map fun i => (i, source.mask.get i)
  | copyOnes source => source.mask.ones.map fun i => (i, true)

theorem nodup_assignments (word : Mask) (op : WordOp) :
    ((op.assignments word).map Prod.fst).Nodup := by
  cases op with
  | write bit value => exact List.nodup_singleton bit
  | reset =>
    rw [assignments, Mask.map_fst_assignments word.ones fun _ => false]
    exact word.pairwise_ones.imp Nat.ne_of_lt
  | writeNat value =>
    rw [assignments, Mask.map_fst_assignments]
    exact List.nodup_range
  | copyFrom source =>
    rw [assignments, Mask.map_fst_assignments]
    exact List.nodup_range
  | copyOnes source =>
    rw [assignments, Mask.map_fst_assignments source.mask.ones fun _ => true]
    exact source.mask.pairwise_ones.imp Nat.ne_of_lt

def result (word : Mask) (op : WordOp) : Mask := (word.assign (op.assignments word)).2

@[simp] theorem size_result (word : Mask) (op : WordOp) : (op.result word).size = word.size :=
  word.size_assign _

/-- A change through a view assigns bits of the word that it shows. -/
theorem outcome_on {region : Region} {total start size : Nat} {m : Mask}
    (spans : region.Spans total start size) (sized : m.size = total) (op : WordOp) :
    (op.on region).outcome ⟨false, m⟩ =
      (((m.extract start size).assign (op.assignments (m.extract start size))).1,
        ⟨false, m.splice start (op.result (m.extract start size))⟩) := by
  rw [result, ← spans.outcome_writeAll sized]
  cases op with
  | write bit value =>
    have single : region.write bit value = region.writeAll [(bit, value)] := (bind_pure _).symm
    rw [on, single, assignments]
  | reset => exact spans.outcome_reset sized
  | writeNat value => rw [on, Region.writeNat_eq, assignments]
  | copyFrom source => rw [on, Region.copyFrom_eq source.shows, assignments]
  | copyOnes source => rw [on, Region.copyOnes_eq source.shows, assignments]

end WordOp

namespace Image

def change (index : Nat) (op : WordOp) : Edit Image BitError Unit := do
  let region ← Edit.ofFault ((← get).wordRegion index)
  edit (op.on region)

/-- The image after a history of changes, failed ones included. -/
def after (image : Image) (history : List (Nat × WordOp)) : Image :=
  history.foldl (fun image step => ((change step.1 step.2).outcome image).2) image

/-- What the changes of one word in a history make of it, when it is zero at first. -/
def wordAfter (width index : Nat) (history : List (Nat × WordOp)) : Mask :=
  history.foldl (fun word step => if step.1 = index then step.2.result word else word)
    (Mask.blank width)

def replace (image : Image) (index : Nat) (word : Mask) : Image :=
  { image with bits := image.bits.splice (image.layout.startOf index) word }

variable {image : Image} {index : Nat}

theorem spans_word (whole : image.Whole) (lt : index < image.layout.words) :
    Region.Spans [.window (image.layout.startOf index) image.layout.width] image.bits.size
      (image.layout.startOf index) image.layout.width := by
  have fits := WordLayout.startOf_add_le lt
  have size := whole.size
  have small := whole.small
  have spans := (Region.spans_nil image.bits.size).window
    (show image.layout.startOf index + image.layout.width ≤ image.bits.size by omega) (by omega)
  rwa [Nat.zero_add] at spans

theorem outcome_edit (act : BitEdit Unit) :
    (edit act).outcome image = ((act.outcome ⟨false, image.bits⟩).1,
      { image with bits := (act.outcome ⟨false, image.bits⟩).2.mask }) := by
  show ((act.outcome ⟨false, image.bits⟩).1.mapError (Failure.mapError fun e => e), _) = _
  congr 1
  cases (act.outcome ⟨false, image.bits⟩).1 with
  | ok value => rfl
  | error failure => cases failure <;> rfl

/-- A change is made in its word. -/
theorem outcome_change (whole : image.Whole) (lt : index < image.layout.words) (op : WordOp) :
    (change index op).outcome image =
      let word := image.bits.extract (image.layout.startOf index) image.layout.width
      ((word.assign (op.assignments word)).1, image.replace index (op.result word)) := by
  show (ofFault (image.wordRegion index) >>= fun region => edit (op.on region)).outcome image = _
  rw [wordRegion_eq whole.small lt, ofFault_ok_bind, outcome_edit,
    op.outcome_on (spans_word whole lt) rfl]
  rfl

theorem outcome_change_outside (outside : image.layout.words ≤ index) (op : WordOp) :
    (change index op).outcome image = (.error (.fault (.wordOutsideImage index)), image) := by
  show (ofFault (image.wordRegion index) >>= fun region => edit (op.on region)).outcome image = _
  rw [wordRegion, if_neg (by omega)]
  rfl

theorem Whole.replace (whole : image.Whole) (index : Nat) (word : Mask) :
    (image.replace index word).Whole :=
  ⟨(Mask.size_splice _ _ _).trans whole.size, whole.small⟩

theorem word_replace_self (whole : image.Whole) (lt : index < image.layout.words) {word : Mask}
    (width : word.size = image.layout.width) :
    (image.replace index word).word index = .ok word := by
  have fits := WordLayout.startOf_add_le lt
  have size := whole.size
  rw [word_eq (whole.replace index word).small lt]
  show Except.ok (Mask.extract (image.bits.splice _ word) (image.layout.startOf index)
    image.layout.width) = _
  rw [← width, Mask.extract_splice _ _ (by omega)]

theorem word_replace_of_ne (whole : image.Whole) (lt : index < image.layout.words) {word : Mask}
    (width : word.size = image.layout.width) {j : Nat} (inside : j < image.layout.words)
    (other : j ≠ index) : (image.replace index word).word j = image.word j := by
  rw [word_eq (whole.replace index word).small inside, word_eq whole.small inside]
  refine congrArg Except.ok (Mask.ofFun_congr fun b within => ?_)
  apply Mask.get_splice_outside
  change b < image.layout.width at within
  show image.layout.startOf j + b < _ ∨ _ ≤ image.layout.startOf j + b
  rcases Nat.lt_or_gt_of_ne other with before | behind
  · have := WordLayout.startOf_apart before lt
    omega
  · have := WordLayout.startOf_apart behind inside
    omega

/-! ## Histories -/

theorem after_cons (image : Image) (step : Nat × WordOp) (history : List (Nat × WordOp)) :
    image.after (step :: history) = ((change step.1 step.2).outcome image).2.after history := rfl

/-- Every change finds the words as the changes before it left them. -/
theorem after_spec (whole : image.Whole) (history : List (Nat × WordOp)) {words : Nat → Mask}
    (held : ∀ i < image.layout.words, image.word i = .ok (words i)) :
    (image.after history).Whole ∧
      image.after history = { image with bits := (image.after history).bits } ∧
      ∀ i < image.layout.words, (image.after history).word i =
        .ok (history.foldl (fun word step => if step.1 = i then step.2.result word else word)
          (words i)) := by
  -- the image and its words change along the history, the layout does not
  induction history generalizing image words with
  | nil => exact ⟨whole, rfl, held⟩
  | cons step rest ih =>
    obtain ⟨index, op⟩ := step
    rw [after_cons]
    by_cases lt : index < image.layout.words
    · have word : image.bits.extract (image.layout.startOf index) image.layout.width =
          words index :=
        Except.ok.inj ((word_eq whole.small lt).symm.trans (held index lt))
      have width : (op.result (words index)).size = image.layout.width := by
        rw [WordOp.size_result, ← word, Mask.size_extract]
      have held' : ∀ i < image.layout.words,
          (image.replace index (op.result (words index))).word i =
            .ok (if index = i then op.result (words i) else words i) := by
        intro i inside
        by_cases same : index = i
        · subst same
          rw [word_replace_self whole lt width, if_pos rfl]
        · rw [word_replace_of_ne whole lt width inside fun equal => same equal.symm, if_neg same,
            held i inside]
      rw [outcome_change whole lt, word]
      exact ih (whole.replace index _) held'
    · rw [outcome_change_outside (by omega)]
      obtain ⟨whole, rest, words⟩ := ih whole held
      refine ⟨whole, rest, fun i inside => ?_⟩
      rw [words i inside, List.foldl_cons, if_neg (by show index ≠ i; omega)]

/-- The words are runs of the bits, the first one on top, and every bit belongs to one word. -/
structure IsArray (image : Image) (words : Nat → Mask) : Prop where
  word : ∀ i < image.layout.words, image.word i = .ok (words i)
  width : ∀ i < image.layout.words, (words i).size = image.layout.width
  bit : ∀ i < image.layout.words, ∀ b < image.layout.width,
    (words i).get b = image.bits.get ((image.layout.words - 1 - i) * image.layout.width + b)
  partition : ∀ k, k < image.bits.size ↔ ∃! p : Nat × Nat,
    p.1 < image.layout.words ∧ p.2 < image.layout.width ∧
      (image.layout.words - 1 - p.1) * image.layout.width + p.2 = k

theorem existsUnique_bit_iff (l : WordLayout) (k : Nat) :
    k < l.words * l.width ↔ ∃! p : Nat × Nat,
      p.1 < l.words ∧ p.2 < l.width ∧ (l.words - 1 - p.1) * l.width + p.2 = k := by
  constructor
  · intro inside
    have positive : 0 < l.width := Nat.pos_of_ne_zero fun zero => by simp [zero] at inside
    have quotient : k / l.width < l.words := Nat.div_lt_of_lt_mul (by rwa [Nat.mul_comm])
    have mirrored : ∀ q < l.words,
        l.words - 1 - q < l.words ∧ l.words - 1 - (l.words - 1 - q) = q := fun q lt => by omega
    refine ⟨(l.words - 1 - k / l.width, k % l.width),
      ⟨(mirrored _ quotient).1, Nat.mod_lt _ positive, ?_⟩, ?_⟩
    · show (l.words - 1 - (l.words - 1 - k / l.width)) * l.width + k % l.width = k
      rw [(mirrored _ quotient).2]
      exact Nat.div_add_mod' k l.width
    · rintro ⟨i, b⟩ ⟨lt, within, same⟩
      dsimp only at lt within same
      have sum : b + l.width * (l.words - 1 - i) = k := by rw [← same, Nat.mul_comm, Nat.add_comm]
      obtain ⟨row, column⟩ := (Nat.div_mod_unique positive).2 ⟨sum, within⟩
      rw [row, column, (mirrored i lt).2]
  · rintro ⟨⟨i, b⟩, ⟨lt, within, rfl⟩, -⟩
    have fits := WordLayout.startOf_add_le lt
    rw [WordLayout.startOf, Nat.sub_right_comm] at fits
    dsimp only at within fits ⊢
    omega

theorem Whole.isArray (whole : image.Whole) {words : Nat → Mask}
    (held : ∀ i < image.layout.words, image.word i = .ok (words i)) : image.IsArray words := by
  have word : ∀ i < image.layout.words,
      words i = image.bits.extract (image.layout.startOf i) image.layout.width :=
    fun i lt => Except.ok.inj ((held i lt).symm.trans (word_eq whole.small lt))
  refine ⟨held, fun i lt => ?_, fun i lt b inside => ?_, fun k => ?_⟩
  · rw [word i lt, Mask.size_extract]
  · rw [word i lt, Mask.get_extract, decide_eq_true inside, Bool.true_and, WordLayout.startOf,
      Nat.sub_right_comm]
  · rw [whole.size]
    exact existsUnique_bit_iff image.layout k

/-- A change assigns bits of its word and leaves everything else as it is. -/
structure Changes (image : Image) (index : Nat) (op : WordOp)
    (result : Except (Failure BitError) Unit) (changed : Image) : Prop where
  word : ∃ old new, image.word index = .ok old ∧ changed.word index = .ok new ∧
    old.Assigned (op.assignments old) result new
  others : ∀ j < image.layout.words, j ≠ index → changed.word j = image.word j
  outside : ∀ k, (∀ b < image.layout.width,
    k ≠ (image.layout.words - 1 - index) * image.layout.width + b) →
    changed.bits.get k = image.bits.get k
  rest : changed = { image with bits := changed.bits }

theorem Whole.changes (whole : image.Whole) (lt : index < image.layout.words) (op : WordOp) :
    image.Changes index op ((change index op).outcome image).1
      ((change index op).outcome image).2 := by
  rw [outcome_change whole lt]
  have width : (op.result (image.bits.extract (image.layout.startOf index)
      image.layout.width)).size = image.layout.width := by
    rw [WordOp.size_result, Mask.size_extract]
  refine ⟨⟨_, _, word_eq whole.small lt, word_replace_self whole lt width,
    Mask.assigned_assign _ (op.nodup_assignments _)⟩, fun j inside other =>
    word_replace_of_ne whole lt width inside other, fun k apart => ?_, rfl⟩
  apply Mask.get_splice_outside
  rw [width, WordLayout.startOf, Nat.sub_right_comm]
  by_contra inside
  exact apart (k - (image.layout.words - 1 - index) * image.layout.width) (by omega) (by omega)

theorem outcome_write_outside (whole : image.Whole) (lt : index < image.layout.words) {bit : Nat}
    (past : image.layout.width ≤ bit) (value : Bool) :
    (change index (.write bit value)).outcome image =
      (.error (.refused (.outOfBounds bit image.layout.width)), image) := by
  have refused : ∀ word : Mask, word.size = image.layout.width → word.assign [(bit, value)] =
      (.error (.refused (.outOfBounds bit image.layout.width)), word) := by
    intro word width
    rw [Mask.assign, if_neg (by omega), width]
  rw [outcome_change whole lt]
  simp only [WordOp.result, WordOp.assignments, refused _ (Mask.size_extract _ _ _), replace,
    Mask.splice_extract]

/-- In an image that starts out blank, the words are an array under every history of changes: each
word is what its own changes made of it, the next change assigns bits of its word only, and a bit
past the end of the word is refused. -/
theorem words_change_alone (layout : WordLayout) (muxes : MuxBank)
    (small : layout.words * layout.width < Checked.limit) :
    ∃ fresh, blank layout muxes = .ok fresh ∧ ∀ history : List (Nat × WordOp),
      (fresh.after history).layout = layout ∧
      (fresh.after history).IsArray (fun i => wordAfter layout.width i history) ∧
      ∀ index < layout.words,
        (∀ op, (fresh.after history).Changes index op
          ((change index op).outcome (fresh.after history)).1
          ((change index op).outcome (fresh.after history)).2) ∧
        ∀ bit value, layout.width ≤ bit →
          (change index (.write bit value)).outcome (fresh.after history) =
            (.error (.refused (.outOfBounds bit layout.width)), fresh.after history) := by
  have bits : layout.imageBits = .ok (layout.words * layout.width) :=
    Checked.within_eq_ok.2 ⟨small, rfl⟩
  have zero : ∀ start, (Mask.blank (layout.words * layout.width)).extract start layout.width =
      Mask.blank layout.width :=
    fun start => Mask.eq_of_get (by simp) fun i => by simp
  let fresh : Image := { bits := Mask.blank (layout.words * layout.width), layout, muxes }
  have whole : fresh.Whole := ⟨rfl, small⟩
  have held : ∀ i < fresh.layout.words, fresh.word i = .ok (Mask.blank layout.width) :=
    fun i lt => (word_eq small lt).trans (congrArg Except.ok (zero _))
  refine ⟨fresh, by rw [blank, bits]; rfl, fun history => ?_⟩
  obtain ⟨whole, rest, words⟩ := after_spec whole history held
  have same : (fresh.after history).layout = layout := congrArg Image.layout rest
  refine ⟨same, whole.isArray (by rw [same]; exact words), fun index lt => ?_⟩
  have inside : index < (fresh.after history).layout.words := by rwa [same]
  refine ⟨whole.changes inside, fun bit value past => ?_⟩
  have refused := outcome_write_outside whole inside
    (show (fresh.after history).layout.width ≤ bit by rwa [same]) value
  rwa [same] at refused

/-- A number of six digits does not fit a word of five bits. The five that were written before the
refusal stay, and the words around it do not notice. -/
theorem words_change_alone_overflow :
    3 * 5 < Checked.limit ∧ ∃ fresh, blank ⟨3, 5, []⟩ ⟨1, 1⟩ = .ok fresh ∧
      (fresh.after [(1, .writeNat 45), (2, .write 0 true)]).word 0 = .ok (Mask.ofNat 0 5) ∧
      (fresh.after [(1, .writeNat 45), (2, .write 0 true)]).word 1 = .ok (Mask.ofNat 13 5) ∧
      (fresh.after [(1, .writeNat 45), (2, .write 0 true)]).word 2 = .ok (Mask.ofNat 1 5) ∧
      (change 1 (.write 5 true)).outcome (fresh.after [(1, .writeNat 45), (2, .write 0 true)]) =
        (.error (.refused (.outOfBounds 5 5)), fresh.after [(1, .writeNat 45), (2, .write 0 true)]) := by
  refine ⟨by decide, ?_⟩
  obtain ⟨fresh, made, all⟩ := words_change_alone ⟨3, 5, []⟩ ⟨1, 1⟩ (by decide)
  obtain ⟨same, array, changes⟩ := all [(1, .writeNat 45), (2, .write 0 true)]
  have word : ∀ i < 3, (fresh.after [(1, .writeNat 45), (2, .write 0 true)]).word i =
      .ok (wordAfter 5 i [(1, .writeNat 45), (2, .write 0 true)]) :=
    fun i lt => array.word i (by rw [same]; exact lt)
  refine ⟨fresh, made, ?_, ?_, ?_, (changes 1 (by decide)).2 5 true (by decide)⟩
  · rw [word 0 (by decide), show wordAfter 5 0 _ = Mask.ofNat 0 5 by decide]
  · rw [word 1 (by decide), show wordAfter 5 1 _ = Mask.ofNat 13 5 by decide]
  · rw [word 2 (by decide), show wordAfter 5 2 _ = Mask.ofNat 1 5 by decide]

end Image

end FsmFabric
