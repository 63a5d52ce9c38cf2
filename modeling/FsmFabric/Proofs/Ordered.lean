import FsmFabric.Ordered
import Mathlib.Data.List.Nodup

/-!
# Sorted pairs

Sorting only changes the order of pairs, so it keeps what does not depend on order, and its result
does not depend on the order in which the pairs are given. In a sorted list a first component that
occurs twice is found in two neighbours. Where none occurs twice, a search by halving finds each
component that is listed, and for any other it finds how many smaller ones are.
-/

namespace FsmFabric.Ordered

theorem le_iff {a b : Nat × Nat} : le a b = true ↔ a.1 < b.1 ∨ a.1 = b.1 ∧ a.2 ≤ b.2 := by
  simp [le]

theorem perm_insert (a : Nat × Nat) (l : List (Nat × Nat)) : (insert a l).Perm (a :: l) := by
  induction l with
  | nil => exact .refl _
  | cons b rest ih =>
    unfold insert
    split
    · exact .refl _
    · exact (ih.cons b).trans (.swap a b rest)

theorem perm_sort (l : List (Nat × Nat)) : (sort l).Perm l := by
  induction l with
  | nil => exact .refl _
  | cons a rest ih => exact (perm_insert a (sort rest)).trans (ih.cons a)

theorem pairwise_insert {a : Nat × Nat} {l : List (Nat × Nat)}
    (sorted : l.Pairwise fun b c => le b c = true) :
    (insert a l).Pairwise fun b c => le b c = true := by
  induction l with
  | nil => exact List.pairwise_singleton _ _
  | cons b rest ih =>
    obtain ⟨first, later⟩ := List.pairwise_cons.1 sorted
    unfold insert
    split
    · next before =>
      refine .cons (fun c member => ?_) sorted
      rcases List.mem_cons.1 member with rfl | member
      · exact before
      · have := first c member
        rw [le_iff] at before this ⊢
        omega
    · next after =>
      refine .cons (fun c member => ?_) (ih later)
      rcases List.mem_cons.1 ((perm_insert a rest).mem_iff.1 member) with rfl | member
      · rw [le_iff] at after ⊢
        omega
      · exact first c member

theorem pairwise_sort (l : List (Nat × Nat)) : (sort l).Pairwise fun a b => le a b = true := by
  induction l with
  | nil => exact .nil
  | cons a rest ih => exact pairwise_insert ih

theorem repeated?_eq_none {l : List (Nat × Nat)} (sorted : l.Pairwise fun a b => le a b = true) :
    repeated? l = none ↔ (l.map Prod.fst).Nodup := by
  induction l with
  | nil => simp [repeated?]
  | cons a rest ih =>
    cases rest with
    | nil => simp [repeated?]
    | cons b rest =>
      obtain ⟨first, later⟩ := List.pairwise_cons.1 sorted
      have next := le_iff.1 (first b List.mem_cons_self)
      unfold repeated?
      split
      · next same => simp [same]
      · next differs =>
        have new : a.1 ∉ (b :: rest).map Prod.fst := by
          intro member
          obtain ⟨c, other, same⟩ := List.mem_map.1 member
          -- nothing behind the second pair has a smaller first component
          have : b.1 ≤ c.1 := by
            rcases List.mem_cons.1 other with rfl | other
            · exact Nat.le_refl _
            · have := le_iff.1 ((List.pairwise_cons.1 later).1 c other)
              omega
          omega
        rw [ih later]
        exact ⟨fun once => List.nodup_cons.2 ⟨new, once⟩, fun once => (List.nodup_cons.1 once).2⟩

theorem repeated?_sort_eq_none {l : List (Nat × Nat)} :
    repeated? (sort l) = none ↔ (l.map Prod.fst).Nodup := by
  rw [repeated?_eq_none (pairwise_sort l), ((perm_sort l).map Prod.fst).nodup_iff]

theorem sort_eq_of_perm {l l' : List (Nat × Nat)} (perm : l.Perm l') : sort l = sort l' := by
  have sorted : (sort l).Perm (sort l') := (perm_sort l).trans (perm.trans (perm_sort l').symm)
  refine sorted.eq_of_pairwise (fun a b _ _ before after => ?_) (pairwise_sort l) (pairwise_sort l')
  rw [le_iff] at before after
  exact Prod.ext (by omega) (by omega)

/-! ## Searching -/

/-- The first components ascend, and none occurs twice. -/
def Ascending (l : List (Nat × Nat)) : Prop := l.Pairwise fun a b => a.1 < b.1

theorem ascending_sort {l : List (Nat × Nat)} (once : (l.map Prod.fst).Nodup) :
    Ascending (sort l) := by
  have different : (sort l).Pairwise fun a b => a.1 ≠ b.1 :=
    List.pairwise_map.1 (((perm_sort l).map Prod.fst).nodup_iff.2 once)
  refine ((pairwise_sort l).and different).imp fun both => ?_
  have := le_iff.1 both.1
  omega

variable {l : List (Nat × Nat)} {key : Nat}

theorem Ascending.lt (ascending : Ascending l) {i j : Nat} {a b : Nat × Nat} (less : i < j)
    (foundA : l[i]? = some a) (foundB : l[j]? = some b) : a.1 < b.1 := by
  obtain ⟨ltA, rfl⟩ := List.getElem?_eq_some_iff.1 foundA
  obtain ⟨ltB, rfl⟩ := List.getElem?_eq_some_iff.1 foundB
  exact List.pairwise_iff_getElem.1 ascending i j ltA ltB less

/-- The search has come down to `size` places from `base` on: behind them are larger components
only, and the first one of them is not larger than the key, unless it is the first one of all. -/
structure Narrowed (l : List (Nat × Nat)) (key base size : Nat) : Prop where
  nonempty : 0 < size
  fits : base + size ≤ l.length
  behind : ∀ (i : Nat) (pair : Nat × Nat), base + size ≤ i → l[i]? = some pair → key < pair.1
  first : base = 0 ∨ ∃ pair, l[base]? = some pair ∧ pair.1 ≤ key

theorem Narrowed.pass {base size : Nat} (narrowed : Narrowed l key base size)
    (ascending : Ascending l) (several : 1 < size) :
    Narrowed l key
      (if (l[base + size / 2]?).any fun pair => key < pair.1 then base else base + size / 2)
      (size - size / 2) := by
  have fits := narrowed.fits
  have inside : base + size / 2 < l.length := by omega
  have middle : l[base + size / 2]? = some l[base + size / 2] := List.getElem?_eq_getElem inside
  rw [middle, Option.any_some]
  by_cases smaller : key < l[base + size / 2].1
  · rw [if_pos (decide_eq_true smaller)]
    refine ⟨by omega, by omega, fun i pair past found => ?_, narrowed.first⟩
    rcases Nat.eq_or_lt_of_le (show base + size / 2 ≤ i by omega) with same | later
    · rw [← same, middle] at found
      exact Option.some.inj found ▸ smaller
    · exact Nat.lt_trans smaller (ascending.lt later middle found)
  · rw [if_neg (by simpa using smaller)]
    refine ⟨by omega, by omega, fun i pair past => narrowed.behind i pair (by omega), ?_⟩
    exact .inr ⟨_, middle, Nat.le_of_not_lt smaller⟩

theorem Narrowed.narrow {passes base size : Nat} (narrowed : Narrowed l key base size)
    (ascending : Ascending l) (enough : size ≤ passes + 1) :
    Narrowed l key (narrow l key passes base size) 1 := by
  -- every pass leaves at least one place less
  induction passes generalizing base size with
  | zero =>
    have single : size = 1 := by
      have := narrowed.nonempty
      omega
    exact single ▸ narrowed
  | succ passes ih =>
    rw [Ordered.narrow]
    split
    · next single =>
      have single : size = 1 := by
        have := narrowed.nonempty
        omega
      exact single ▸ narrowed
    · exact ih (narrowed.pass ascending (by omega)) (by omega)

/-- The pairs with a smaller first component are counted by the place where they end. -/
theorem length_filter_smaller {k : Nat} (inside : k ≤ l.length)
    (below : ∀ (i : Nat) (pair : Nat × Nat), i < k → l[i]? = some pair → pair.1 < key)
    (above : ∀ (i : Nat) (pair : Nat × Nat), k ≤ i → l[i]? = some pair → ¬ pair.1 < key) :
    (l.filter fun pair => pair.1 < key).length = k := by
  have front : (l.take k).filter (fun pair => decide (pair.1 < key)) = l.take k := by
    refine List.filter_eq_self.2 fun pair member => ?_
    obtain ⟨i, lt, found⟩ := List.mem_take_iff_getElem.1 member
    exact decide_eq_true (below i pair (by omega) (List.getElem?_eq_some_iff.2 ⟨_, found⟩))
  have back : (l.drop k).filter (fun pair => decide (pair.1 < key)) = [] := by
    refine List.filter_eq_nil_iff.2 fun pair member => ?_
    obtain ⟨i, found⟩ := List.mem_iff_getElem?.1 member
    rw [List.getElem?_drop] at found
    simpa using above (k + i) pair (by omega) found
  conv_lhs => rw [← List.take_append_drop k l]
  rw [List.filter_append, front, back, List.append_nil, List.length_take, Nat.min_eq_left inside]

/-- A search finds a component where it is listed, and otherwise the number of smaller ones. -/
theorem search_cases (ascending : Ascending l) (key : Nat) :
    (∃ i value, search l key = .found i ∧ l[i]? = some (key, value)) ∨
      search l key = .gap (l.filter fun pair => pair.1 < key).length ∧
        ∀ pair ∈ l, pair.1 ≠ key := by
  by_cases empty : l = []
  · subst empty
    exact .inr ⟨rfl, fun pair member => absurd member List.not_mem_nil⟩
  have positive := List.length_pos_of_ne_nil empty
  have start : Narrowed l key 0 l.length :=
    ⟨positive, by omega, fun i pair past found => by
      have := (List.getElem?_eq_some_iff.1 found).1
      omega, .inl rfl⟩
  have narrowed := start.narrow ascending (Nat.le_succ _)
  rw [search]
  generalize narrow l key l.length 0 l.length = base at narrowed ⊢
  have inside : base < l.length := narrowed.fits
  have here : l[base]? = some l[base] := List.getElem?_eq_getElem inside
  simp only [here]
  by_cases same : l[base].1 = key
  · rw [if_pos same]
    exact .inl ⟨base, l[base].2, rfl, by rw [here, ← same]⟩
  -- The places up to `k` hold smaller components, those from `k` on larger ones.
  obtain ⟨k, gap, le, below, above⟩ : ∃ k,
      (if l[base].1 < key then Place.gap (base + 1) else .gap base) = .gap k ∧ k ≤ l.length ∧
      (∀ (i : Nat) (pair : Nat × Nat), i < k → l[i]? = some pair → pair.1 < key) ∧
      ∀ (i : Nat) (pair : Nat × Nat), k ≤ i → l[i]? = some pair → key < pair.1 := by
    by_cases smaller : l[base].1 < key
    · refine ⟨base + 1, if_pos smaller, inside, fun i pair lt found => ?_, narrowed.behind⟩
      rcases Nat.eq_or_lt_of_le (Nat.le_of_lt_succ lt) with equal | less
      · rw [equal, here] at found
        exact Option.some.inj found ▸ smaller
      · exact Nat.lt_trans (ascending.lt less found here) smaller
    · have larger : key < l[base].1 := by omega
      have zero : base = 0 := by
        rcases narrowed.first with zero | ⟨pair, found, notLarger⟩
        · exact zero
        · rw [here] at found
          have := Option.some.inj found ▸ notLarger
          omega
      refine ⟨base, if_neg smaller, by omega, fun i _ lt => by omega, fun i pair past found => ?_⟩
      rcases Nat.eq_or_lt_of_le past with equal | less
      · rw [← equal, here] at found
        exact Option.some.inj found ▸ larger
      · exact Nat.lt_trans larger (ascending.lt less here found)
  rw [if_neg same, gap]
  refine .inr ⟨?_, fun pair member => ?_⟩
  · rw [length_filter_smaller le below fun i pair past found =>
      Nat.lt_asymm (above i pair past found)]
  · obtain ⟨i, found⟩ := List.mem_iff_getElem?.1 member
    rcases Nat.lt_or_ge i k with lt | ge
    · exact Nat.ne_of_lt (below i pair lt found)
    · exact Nat.ne_of_gt (above i pair ge found)

end FsmFabric.Ordered
