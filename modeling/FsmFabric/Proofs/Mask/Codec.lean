import FsmFabric.Mask.Codec
import FsmFabric.Proofs.Json.Decode

/-!
# Masks survive being written

The check of a decoded storage looks at its last word only. It accepts exactly the tidy storages, so
every mask that is not too large is read back as it was, word for word, and every pair of size and
words is either that of a mask or refused.
-/

namespace FsmFabric

theorem Storage.isTidy_of_tidy {s : Storage} (tidy : s.Tidy) : s.isTidy = true := by
  rw [isTidy, Bool.and_eq_true, Bool.or_eq_true]
  refine ⟨beq_iff_eq.2 tidy.words_size, ?_⟩
  by_cases whole : s.size % 64 = 0
  · exact .inl (beq_iff_eq.2 whole)
  · right
    rw [beq_iff_eq]
    apply BitVec.eq_of_getLsbD_eq
    intro j _
    rw [BitVec.getLsbD_ushiftRight]
    show _ = (0#64).getLsbD j
    rw [BitVec.getLsbD_zero]
    by_cases fits : s.size % 64 + j < 64
    · have last : s.words.size - 1 = (s.size + j) / 64 := by
        rw [tidy.words_size, wordsFor]
        omega
      have bit := tidy.clear (s.size + j) (by omega)
      rwa [stored, ← last, show (s.size + j) % 64 = s.size % 64 + j by omega] at bit
    · exact BitVec.getLsbD_of_ge _ _ (by omega)

/-- Size and words as a mask is written, whether or not they belong together. -/
def Storage.toJson (s : Storage) : Json :=
  .object [("nbits", .nat s.size), ("words", .array (s.words.toList.map fun w => .nat w.toNat))]

namespace Mask

theorem ofStorage?_eq_some {s : Storage} {m : Mask} : ofStorage? s = some m ↔ m.storage = s := by
  constructor
  · intro kept
    unfold ofStorage? at kept
    split at kept
    · cases kept
      rfl
    · cases kept
  · intro same
    subst same
    exact dif_pos (Storage.isTidy_of_tidy m.tidy)

theorem ofStorage?_eq_none {s : Storage} : ofStorage? s = none ↔ ¬ s.Tidy := by
  unfold ofStorage?
  split
  · next tidy => simp [Storage.tidy_of_isTidy tidy]
  · next untidy => simpa using mt Storage.isTidy_of_tidy untidy

private theorem decode_words (s : Storage) :
    Decode.list Decode.index (.array (s.words.toList.map fun w => .nat w.toNat)) =
      .ok (s.words.toList.map BitVec.toNat) := by
  have words := Decode.inverts_index.list.read
    (s.words.toList.map BitVec.toNat) (by
      intro n member
      obtain ⟨w, -, rfl⟩ := List.mem_map.1 member
      exact w.isLt)
  rwa [List.map_map] at words

/-- Size and words are decoded to the mask that they store, or refused as malformed. -/
theorem ofJson_storage {s : Storage} (small : s.size < UInt64.size) :
    ofJson s.toJson =
      (ofStorage? s).elim (.error (.mask (.malformed s.size s.words.size))) .ok := by
  have fields : Decode.record fieldNames s.toJson = .ok
      [("nbits", .nat s.size), ("words", .array (s.words.toList.map fun w => .nat w.toNat))] :=
    Decode.record_object (by simp [fieldNames]) (by simp)
  have size : Decode.index (.nat s.size) = .ok s.size := Decode.inverts_index.read s.size small
  have words : (s.words.toList.map (BitVec.ofNat 64 ∘ BitVec.toNat)).toArray = s.words := by
    have word : BitVec.ofNat 64 ∘ BitVec.toNat = id := by
      funext w
      simp
    rw [word, List.map_id, Array.toArray_toList]
  rw [ofJson, fields]
  simp only [bind, Except.bind, pure, Except.pure, size, decode_words, Decode.field_cons_self,
    Decode.field_cons_of_ne (show "words" ≠ "nbits" by decide), List.map_map, words,
    List.length_map, Array.length_toList]
  cases ofStorage? s <;> rfl

section Accepted

variable {s : Storage} (small : s.size < UInt64.size)

include small

theorem ofJson_storage_eq_ok {m : Mask} : ofJson s.toJson = .ok m ↔ m.storage = s := by
  rw [ofJson_storage small, ← ofStorage?_eq_some]
  cases ofStorage? s with
  | none => exact ⟨nofun, nofun⟩
  | some m' => simp

theorem exists_ofJson_storage : (∃ m, ofJson s.toJson = .ok m) ↔ s.Tidy := by
  constructor
  · intro ⟨m, read⟩
    exact (ofJson_storage_eq_ok small).1 read ▸ m.tidy
  · intro tidy
    exact ⟨⟨s, tidy⟩, (ofJson_storage_eq_ok small).2 rfl⟩

theorem ofJson_storage_of_not_tidy (untidy : ¬ s.Tidy) :
    ofJson s.toJson = .error (.mask (.malformed s.size s.words.size)) := by
  rw [ofJson_storage small, ofStorage?_eq_none.2 untidy]
  rfl

end Accepted

theorem inverts_codec : Decode.Inverts ofJson toJson fun m => m.size < UInt64.size where
  read m small := by
    show ofJson m.storage.toJson = .ok m
    exact (ofJson_storage_eq_ok small).2 rfl
  range j m decoded := by
    obtain ⟨fields, -, decoded⟩ := bind_eq_ok.1 decoded
    obtain ⟨size, read, decoded⟩ := bind_eq_ok.1 decoded
    obtain ⟨words, -, decoded⟩ := bind_eq_ok.1 decoded
    obtain ⟨_, sized⟩ := Decode.exists_of_field read
    have small := Decode.inverts_index.range _ _ sized
    split at decoded
    · next kept =>
      cases decoded
      rwa [Mask.size, ofStorage?_eq_some.1 kept]
    · cases decoded

end Mask

end FsmFabric
