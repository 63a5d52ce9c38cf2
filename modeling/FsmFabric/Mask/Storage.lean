/-!
# Bits packed into words

A `Storage` is a number of bits and the 64-bit words that hold them, bit `i` being bit `i % 64` of
word `i / 64`. It is `Tidy` when it has exactly the words it needs and no bit past its size is set.
The operations here work word by word and keep a storage tidy.
-/

namespace FsmFabric

abbrev Word := BitVec 64

def Word.assign (w : Word) (k : Nat) (value : Bool) : Word :=
  if value then w ||| BitVec.twoPow 64 k else w &&& ~~~ BitVec.twoPow 64 k

theorem Word.getLsbD_assign (w : Word) {k : Nat} (hk : k < 64) (value : Bool) (j : Nat) :
    (w.assign k value).getLsbD j = if j = k then value else w.getLsbD j := by
  unfold Word.assign
  by_cases hj : j = k
  · subst hj
    cases value <;> simp [hk]
  · have hkj : ¬ k = j := fun h => hj h.symm
    cases value
    · by_cases hj64 : j < 64
      · simp [hj, hj64]
      · simp [hkj, hj, BitVec.getLsbD_of_ge w j (by omega)]
    · simp [hkj, hj]

def wordsFor (size : Nat) : Nat := (size + 63) / 64

/-- A size in bits and the words that hold them. -/
structure Storage where
  size : Nat
  words : Array Word
deriving DecidableEq, Repr

namespace Storage

/-- Word `k`, zero past the last one. -/
def wordAt (s : Storage) (k : Nat) : Word := s.words.getD k 0

/-- The stored bit at `i`, also past the size. -/
def stored (s : Storage) (i : Nat) : Bool := (s.wordAt (i / 64)).getLsbD (i % 64)

/-- Bit `i`, false at or past the size. -/
def get (s : Storage) (i : Nat) : Bool := decide (i < s.size) && s.stored i

/-- Exactly the words needed, and nothing set past the size. -/
structure Tidy (s : Storage) : Prop where
  words_size : s.words.size = wordsFor s.size
  clear : ∀ i, s.size ≤ i → s.stored i = false

def blank (size : Nat) : Storage := ⟨size, Array.replicate (wordsFor size) 0⟩

/-- The storage enlarged to hold at least `size` bits; never shrinks. -/
def grow (s : Storage) (size : Nat) : Storage :=
  if size ≤ s.size then s
  else ⟨size, s.words ++ Array.replicate (wordsFor size - s.words.size) 0⟩

/-- Bit `i` written, enlarging the storage if it lies past the end. -/
def put (s : Storage) (i : Nat) (value : Bool) : Storage :=
  let s := s.grow (i + 1)
  ⟨s.size, s.words.modify (i / 64) (·.assign (i % 64) value)⟩

/-- The first set bit at or after `start`, or the size if there is none: skips zero words. -/
def scan (s : Storage) (start : Nat) : Nat :=
  if start < s.size then
    let k := start / 64
    go (wordsFor s.size - k) k (s.wordAt k &&& (BitVec.allOnes 64 <<< (start % 64)))
  else s.size
where
  /-- Looks at `w`, the rest of word `k`, then at the words after it, `left` words in all. -/
  go : Nat → Nat → Word → Nat
    | 0, _, _ => s.size
    | left + 1, k, w =>
      if w = 0 then go left (k + 1) (s.wordAt (k + 1))
      else min (64 * k + w.ctz.toNat) s.size

/-- The number of set bits, counted word by word. -/
def population (s : Storage) : Nat :=
  s.words.foldl (fun total w => total + w.cpop.toNat) 0

/-- Decides whether a storage is tidy: only the last word can hold bits past the size. -/
def isTidy (s : Storage) : Bool :=
  s.words.size == wordsFor s.size &&
    (s.size % 64 == 0 || (s.wordAt (s.words.size - 1)) >>> (s.size % 64) == 0)

/-! ## Tidiness is kept -/

theorem stored_of_words_le (s : Storage) {i : Nat} (h : s.words.size ≤ i / 64) :
    s.stored i = false := by
  simp [stored, wordAt, Array.getD_eq_getD_getElem?, Array.getElem?_eq_none h]

theorem stored_blank (size i : Nat) : (blank size).stored i = false := by
  simp [stored, wordAt, blank, Array.getD_eq_getD_getElem?, Array.getElem?_replicate]
  split <;> simp

theorem tidy_blank (size : Nat) : (blank size).Tidy where
  words_size := by simp [blank]
  clear i _ := stored_blank size i

theorem wordsFor_mono {a b : Nat} (h : a ≤ b) : wordsFor a ≤ wordsFor b := by
  unfold wordsFor
  omega

theorem size_grow (s : Storage) (size : Nat) : (s.grow size).size = max s.size size := by
  unfold grow
  split
  · omega
  · next larger => exact (Nat.max_eq_right (Nat.le_of_not_le larger)).symm

theorem stored_grow (s : Storage) (size i : Nat) : (s.grow size).stored i = s.stored i := by
  unfold grow
  split
  · rfl
  · simp only [stored, wordAt, Array.getD_eq_getD_getElem?, Array.getElem?_append,
      Array.getElem?_replicate]
    by_cases h : i / 64 < s.words.size
    · simp [h]
    · rw [if_neg h, Array.getElem?_eq_none (by omega)]
      split <;> simp

theorem Tidy.grow {s : Storage} (h : s.Tidy) (size : Nat) : (s.grow size).Tidy where
  words_size := by
    unfold Storage.grow
    split
    · exact h.words_size
    · have mono : wordsFor s.size ≤ wordsFor size := wordsFor_mono (by omega)
      simp [h.words_size]
      omega
  clear i hi := by
    rw [stored_grow]
    exact h.clear i (by rw [size_grow] at hi; omega)

theorem size_put (s : Storage) (i : Nat) (value : Bool) :
    (s.put i value).size = max s.size (i + 1) := by
  simp [put, size_grow]

theorem stored_put {s : Storage} (h : s.Tidy) (i : Nat) (value : Bool) (j : Nat) :
    (s.put i value).stored j = if j = i then value else s.stored j := by
  have tidy := h.grow (i + 1)
  have size := size_grow s (i + 1)
  have enough : i / 64 < (s.grow (i + 1)).words.size := by
    rw [tidy.words_size, size, wordsFor]
    omega
  rw [← stored_grow s (i + 1) j]
  simp only [put, stored, wordAt, Array.getD_eq_getD_getElem?, Array.getElem?_modify]
  by_cases hw : i / 64 = j / 64
  · rw [if_pos hw]
    have inside : j / 64 < (s.grow (i + 1)).words.size := hw ▸ enough
    simp only [Array.getElem?_eq_getElem inside, Option.map_some, Option.getD_some]
    rw [Word.getLsbD_assign _ (Nat.mod_lt _ (by decide))]
    by_cases hj : j = i
    · simp [hj]
    · have : ¬ j % 64 = i % 64 := by omega
      simp [hj, this]
  · rw [if_neg hw]
    have : ¬ j = i := fun e => hw (by rw [e])
    simp [this]

theorem Tidy.put {s : Storage} (h : s.Tidy) (i : Nat) (value : Bool) : (s.put i value).Tidy where
  words_size := by
    have tidy := h.grow (i + 1)
    simpa [Storage.put] using tidy.words_size
  clear j hj := by
    rw [size_put] at hj
    rw [stored_put h, if_neg (by omega)]
    exact h.clear j (by omega)

theorem tidy_of_isTidy {s : Storage} (h : s.isTidy = true) : s.Tidy := by
  simp only [isTidy, Bool.and_eq_true, Bool.or_eq_true, beq_iff_eq] at h
  obtain ⟨count, tail⟩ := h
  refine ⟨count, fun i hi => ?_⟩
  by_cases past : s.words.size ≤ i / 64
  · exact stored_of_words_le s past
  · have last : i / 64 = s.words.size - 1 := by
      rw [count, wordsFor] at past ⊢
      omega
    have here : s.size % 64 ≤ i % 64 ∧ s.size % 64 ≠ 0 := by
      rw [count, wordsFor] at past
      omega
    have empty := tail.resolve_left here.2
    have bit := congrArg (fun w => BitVec.getLsbD w (i % 64 - s.size % 64)) empty
    simp only [BitVec.getLsbD_ushiftRight] at bit
    rw [show s.size % 64 + (i % 64 - s.size % 64) = i % 64 by omega] at bit
    simpa [stored, last] using bit

end Storage

end FsmFabric
