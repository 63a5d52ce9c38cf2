import FsmFabric.Image.Listing
import FsmFabric.Proofs.Image
import FsmFabric.Proofs.Mask.Hex

/-!
# Listings can be read back

Each listing goes through the bits of an image in an order of its own: the lines of digits word by
word, the array by groups of 32 bits from the last word on, and the listing by bytes from the top of
the whole image. What a reader makes of a text is defined apart from how the text is written.
-/

namespace FsmFabric

open Reading

/-! ## What a listing says -/

namespace Listing

end Listing

namespace Image

variable {image : Image}

def wordAt (image : Image) (index : Nat) : Mask :=
  image.bits.extract (image.layout.startOf index) image.layout.width

@[simp] theorem size_wordAt (image : Image) (index : Nat) :
    (image.wordAt index).size = image.layout.width :=
  Mask.size_ofFun _ _

/-! ## Lines of digits -/

def digitLines (image : Image) : List (List Char) :=
  (List.range image.layout.words).map fun i => (image.wordAt i).nibbles

theorem exists_renderTab (small : image.layout.words * image.layout.width < Checked.limit)
    (wide : 0 < image.layout.width) :
    ∃ tab, image.renderTab = .ok tab ∧ tab.toList = image.digitLines.flatMap (· ++ ['\n']) := by
  have lines : tabulate (fun index => do return (← image.word index).hex ++ "\n") 0
      image.layout.words = .ok ((List.range image.layout.words).map fun i =>
        (image.wordAt i).hex ++ "\n") :=
    tabulate_eq_ok fun i inside => by
      rw [word_eq small inside]
      rfl
  refine ⟨_, by rw [renderTab, lines]; rfl, ?_⟩
  rw [String.toList_join, digitLines, List.flatMap_map, List.flatMap_map]
  refine List.flatMap_congr fun i _ => ?_
  rw [String.toList_append, Mask.toList_hex (by rwa [size_wordAt])]
  rfl

end Image

end FsmFabric
