import FsmFabric.Fault
import FsmFabric.Tabulate
import Mathlib.Algebra.Ring.Nat
import Mathlib.Data.List.Forall2

/-!
# Lists of answers

A list of partial answers succeeds if each of them does. Then it holds the answers in order, and a
table holds the values of its function.
-/

namespace FsmFabric

theorem Checked.room_eq_ok {count bytes : Nat} :
    room count bytes = .ok () ↔ count * bytes < 2 ^ 63 := by
  unfold room
  rw [Nat.one_shiftLeft]
  split <;> simp [*]

theorem Checked.room_eq_error {count bytes : Nat} {fault : Fault} :
    room count bytes = .error fault ↔ 2 ^ 63 ≤ count * bytes ∧ fault = .tooManyEntries count := by
  unfold room
  rw [Nat.one_shiftLeft]
  split
  · next fits => simp [Nat.not_le.2 fits]
  · next many => simp [Nat.not_lt.1 many, eq_comm]

/-! ## Answers for the entries of a list -/

section Lists

variable {ε α β : Type} {l : List α}

theorem forM_eq_ok {act : α → Except ε Unit} :
    l.forM act = .ok () ↔ ∀ a ∈ l, act a = .ok () := by
  induction l with
  | nil => exact ⟨fun _ => nofun, fun _ => rfl⟩
  | cons a rest ih =>
    rw [List.forall_mem_cons, ← ih]
    exact bind_eq_ok.trans ⟨fun ⟨_, both⟩ => both, fun both => ⟨(), both⟩⟩

theorem mapM_eq_pure_map {m : Type → Type} [Monad m] [LawfulMonad m] {f : α → m β} {g : α → β}
    (same : ∀ a ∈ l, f a = pure (g a)) : l.mapM f = pure (l.map g) := by
  induction l with
  | nil => rfl
  | cons a rest ih =>
    rw [List.mapM_cons, same a List.mem_cons_self,
      ih fun b member => same b (List.mem_cons_of_mem _ member)]
    simp

/-- Where success of each answer has a condition and a value, so has success of all. -/
theorem mapM_eq_ok_iff {act : α → Except ε β} {holds : α → Prop} {value : α → β}
    (each : ∀ a ∈ l, ∀ b, act a = .ok b ↔ holds a ∧ b = value a) {bs : List β} :
    l.mapM act = .ok bs ↔ (∀ a ∈ l, holds a) ∧ bs = l.map value := by
  induction l generalizing bs with
  | nil =>
    rw [List.mapM_nil, pure_eq_ok]
    simp [eq_comm]
  | cons a rest ih =>
    obtain ⟨here, later⟩ := List.forall_mem_cons.1 each
    simp only [List.mapM_cons, bind_eq_ok, pure_eq_ok, here, ih later, List.forall_mem_cons,
      List.map_cons]
    constructor
    · rintro ⟨_, ⟨first, rfl⟩, _, ⟨others, rfl⟩, rfl⟩
      exact ⟨⟨first, others⟩, rfl⟩
    · rintro ⟨⟨first, others⟩, rfl⟩
      exact ⟨_, ⟨first, rfl⟩, _, ⟨others, rfl⟩, rfl⟩

variable {f : α → Except ε β} {r : List β}

theorem forall₂_of_mapM (mapped : l.mapM f = .ok r) :
    List.Forall₂ (fun a b => f a = .ok b) l r := by
  induction l generalizing r with
  | nil =>
    cases mapped
    exact .nil
  | cons a rest ih =>
    rw [List.mapM_cons] at mapped
    obtain ⟨b, here, mapped⟩ := bind_eq_ok.1 mapped
    obtain ⟨bs, below, mapped⟩ := bind_eq_ok.1 mapped
    cases mapped
    exact .cons here (ih below)

theorem exists_of_mem_mapM (mapped : l.mapM f = .ok r) {b : β} (member : b ∈ r) :
    ∃ a ∈ l, f a = .ok b := by
  have related := forall₂_of_mapM mapped
  clear mapped
  induction related with
  | nil => cases member
  | cons here _ ih =>
    rcases List.mem_cons.1 member with rfl | member
    · exact ⟨_, List.mem_cons_self, here⟩
    · obtain ⟨a, inside, there⟩ := ih member
      exact ⟨a, List.mem_cons_of_mem _ inside, there⟩

theorem getElem?_of_mapM (mapped : l.mapM f = .ok r) {n : Nat} {a : α} (found : l[n]? = some a) :
    ∃ b, r[n]? = some b ∧ f a = .ok b := by
  have related := forall₂_of_mapM mapped
  clear mapped
  induction related generalizing n with
  | nil => simp at found
  | cons here _ ih =>
    cases n with
    | zero =>
      cases found
      exact ⟨_, rfl, here⟩
    | succ n => exact ih found

end Lists

/-! ## Tables -/

section Tables

variable {ε α : Type} {act : Nat → Except ε α} {value : Nat → α} {count : Nat}

theorem tabulate_eq_ok_iff {holds : Nat → Prop}
    (each : ∀ i < count, ∀ a, act i = .ok a ↔ holds i ∧ a = value i) {as : List α} :
    tabulate act 0 count = .ok as ↔
      (∀ i < count, holds i) ∧ as = (List.range count).map value := by
  rw [tabulate_eq_mapM, ← List.range_eq_range',
    mapM_eq_ok_iff fun i member => each i (List.mem_range.1 member)]
  simp only [List.mem_range]

theorem tabulate_eq_ok (same : ∀ i < count, act i = .ok (value i)) :
    tabulate act 0 count = .ok ((List.range count).map value) := by
  rw [tabulate_eq_mapM, ← List.range_eq_range']
  exact mapM_eq_pure_map fun i member => same i (List.mem_range.1 member)

end Tables

/-! ## Numbers in parts of equal size -/

end FsmFabric
