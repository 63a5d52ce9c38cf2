import FsmFabric.Image.Basic
import FsmFabric.Fabric.Step
import FsmFabric.Proofs.Chip.Layout
import FsmFabric.Proofs.Bits.Span

/-!
# Reading an image

The fields and selections of a word are runs of bits of the image, at positions that depend on the
layout alone.
-/

namespace FsmFabric

namespace WordLayout

def startOf (l : WordLayout) (index : Nat) : Nat := (l.words - index - 1) * l.width

/-- The image has an index for each of its bits, and every field lies inside the word. -/
structure Sound (l : WordLayout) : Prop where
  small : l.words * l.width < Checked.limit
  inside : ∀ f ∈ l.fields, f.offset + f.width ≤ l.width

variable {l : WordLayout}

theorem startOf_add_le {index : Nat} (lt : index < l.words) :
    l.startOf index + l.width ≤ l.words * l.width := by
  have : l.startOf index + l.width = (l.words - index) * l.width := by
    rw [startOf, ← Nat.succ_mul]
    congr 1
    omega
  rw [this]
  exact Nat.mul_le_mul_right _ (by omega)

/-- Two words have no bit in common. -/
theorem startOf_apart {k j : Nat} (lt : k < j) (inside : j < l.words) :
    l.startOf j + l.width ≤ l.startOf k := by
  have : l.startOf j + l.width = (l.words - j) * l.width := by
    rw [startOf, ← Nat.succ_mul]
    congr 1
    omega
  rw [this]
  exact Nat.mul_le_mul_right _ (by omega)

theorem wordOffset_eq (small : l.words * l.width < Checked.limit) {index : Nat}
    (lt : index < l.words) : l.wordOffset index = .ok (l.startOf index) := by
  have := startOf_add_le lt
  have first : Checked.sub l.words index = .ok (l.words - index) :=
    Checked.sub_eq_ok.2 ⟨by omega, rfl⟩
  have second : Checked.sub (l.words - index) 1 = .ok (l.words - index - 1) :=
    Checked.sub_eq_ok.2 ⟨by omega, rfl⟩
  rw [wordOffset, first]
  change (Checked.sub (l.words - index) 1 >>= fun n => Checked.mul n l.width) = _
  rw [second]
  exact Checked.within_eq_ok.2 ⟨by rw [startOf] at this; omega, rfl⟩

end WordLayout

namespace Image

/-- The image has exactly the bits of its words, and an index for each of them. -/
structure Whole (image : Image) : Prop where
  size : image.bits.size = image.layout.words * image.layout.width
  small : image.layout.words * image.layout.width < Checked.limit

variable {image : Image} {index : Nat}

theorem wordRegion_eq (small : image.layout.words * image.layout.width < Checked.limit)
    (lt : index < image.layout.words) :
    image.wordRegion index = .ok [.window (image.layout.startOf index) image.layout.width] := by
  rw [wordRegion, if_pos lt, WordLayout.wordOffset_eq small lt]
  rfl

theorem word_eq (small : image.layout.words * image.layout.width < Checked.limit)
    (lt : index < image.layout.words) :
    image.word index = .ok (image.bits.extract (image.layout.startOf index) image.layout.width) := by
  have := WordLayout.startOf_add_le lt
  rw [word, if_pos lt, WordLayout.wordOffset_eq small lt]
  exact (Bits.shows_ofMask _).extract (by omega)

/-- Copying out of a copied run. -/
theorem extract_extract {m : Mask} {start width offset count : Nat} (fits : offset + count ≤ width) :
    (m.extract start width).extract offset count = m.extract (start + offset) count := by
  refine Mask.ofFun_congr fun i lt => ?_
  rw [Mask.get_extract, decide_eq_true (by omega), Bool.true_and, Nat.add_assoc]

theorem valueAt_extract {m : Mask} {start width offset count : Nat} (fits : offset + count ≤ width) :
    (m.extract start width).valueAt offset count = m.valueAt (start + offset) count := by
  unfold Mask.valueAt
  refine congrArg Mask.valueOf (List.map_congr_left fun i member => ?_)
  rw [List.mem_range] at member
  rw [Mask.get_extract, decide_eq_true (by omega), Bool.true_and, Nat.add_assoc]

theorem field?_eq (sound : image.layout.Sound) (lt : index < image.layout.words) {role : FieldRole}
    {n : Nat} {f : Field} (found : image.layout.field? role n = some f) :
    image.field? index role n =
      .ok (some (image.bits.extract (image.layout.startOf index + f.offset) f.width)) := by
  have inside := sound.inside f (WordLayout.role_of_field? found).1
  have := WordLayout.startOf_add_le lt
  have small := sound.small
  rw [field?, found, word_eq sound.small lt]
  change (Bits.extract _ f.offset f.width >>= fun m => pure (some m)) = _
  rw [(Bits.shows_ofMask _).extract (by omega), extract_extract inside]
  rfl

theorem fieldOf_eq (sound : image.layout.Sound) (lt : index < image.layout.words) {role : FieldRole}
    {n : Nat} {f : Field} (found : image.layout.field? role n = some f) :
    Fabric.fieldOf image index role n =
      some (image.bits.extract (image.layout.startOf index + f.offset) f.width) := by
  rw [Fabric.fieldOf, field?_eq sound lt found]
  rfl

theorem fieldOf_eq_none {role : FieldRole} {n : Nat} (absent : image.layout.field? role n = none) :
    Fabric.fieldOf image index role n = none := by
  rw [Fabric.fieldOf, field?, absent]
  rfl

/-- The selection of a multiplexer stands in its part of the multiplexer field. -/
theorem selection?_of_word {word : Mask} (held : image.word index = .ok word) {mux : Nat} {f : Field}
    (found : image.layout.field? .mux 0 = some f) (small : f.offset + f.width < Checked.limit)
    (inBank : mux < image.muxes.count) (short : image.muxes.selectBits ≤ 64)
    (fits : image.muxes.selectBits * image.muxes.count ≤ f.width) :
    image.selection? index mux = .ok (some (word.valueAt
      (f.offset + mux * image.muxes.selectBits) image.muxes.selectBits)) := by
  have part := MuxBank.part_le inBank
  have product : Checked.mul mux image.muxes.selectBits = .ok (mux * image.muxes.selectBits) :=
    Checked.within_eq_ok.2 ⟨by omega, rfl⟩
  have offset : Checked.add f.offset (mux * image.muxes.selectBits) =
      .ok (f.offset + mux * image.muxes.selectBits) := Checked.within_eq_ok.2 ⟨by omega, rfl⟩
  rw [selection?, found]
  simp only [if_pos inBank, held, product, offset, bind, Except.bind, pure, Except.pure,
    (Bits.shows_ofMask _).valueAt (show f.offset + mux * image.muxes.selectBits + image.muxes.selectBits ≤
      Checked.limit by omega) short]

theorem selection?_eq (sound : image.layout.Sound) (lt : index < image.layout.words) {mux : Nat}
    {f : Field} (found : image.layout.field? .mux 0 = some f) (inBank : mux < image.muxes.count)
    (short : image.muxes.selectBits ≤ 64)
    (fits : image.muxes.selectBits * image.muxes.count ≤ f.width) :
    image.selection? index mux = .ok (some (image.bits.valueAt
      (image.layout.startOf index + f.offset + mux * image.muxes.selectBits)
      image.muxes.selectBits)) := by
  have inside := sound.inside f (WordLayout.role_of_field? found).1
  have := WordLayout.startOf_add_le lt
  have small := sound.small
  have part := MuxBank.part_le inBank
  rw [selection?_of_word (word_eq sound.small lt) found (by omega) inBank short fits,
    valueAt_extract (by omega), Nat.add_assoc]

end Image

end FsmFabric
