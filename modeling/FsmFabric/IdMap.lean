/-!
# Finite maps on numbers

An `IdMap` is a list of entries in ascending order of their keys.
-/

namespace FsmFabric

/-- Entries in ascending order of their keys. -/
structure IdMap (α : Type) where
  entries : List (Nat × α) := []
deriving Repr

namespace IdMap

variable {α : Type}

def empty : IdMap α := ⟨[]⟩

def lookup (k : Nat) : List (Nat × α) → Option α
  | [] => none
  | (j, a) :: rest => if k = j then some a else lookup k rest

def find? (m : IdMap α) (k : Nat) : Option α := lookup k m.entries

def insert (m : IdMap α) (k : Nat) (a : α) : IdMap α := ⟨go m.entries⟩
where
  go : List (Nat × α) → List (Nat × α)
    | [] => [(k, a)]
    | (j, b) :: rest =>
      if k < j then (k, a) :: (j, b) :: rest
      else if k = j then (k, a) :: rest
      else (j, b) :: go rest

theorem find?_insert (m : IdMap α) (k : Nat) (a : α) (j : Nat) :
    (m.insert k a).find? j = if j = k then some a else m.find? j := by
  simp only [find?, insert]
  induction m.entries with
  | nil => simp [insert.go, lookup]
  | cons entry rest ih =>
    obtain ⟨i, b⟩ := entry
    unfold insert.go
    split
    · simp [lookup]
    · split
      · next same =>
        subst same
        by_cases h : j = k <;> simp [lookup, h]
      · next differs =>
        by_cases h : j = i
        · simp [lookup, h, Ne.symm differs]
        · simpa [lookup, h] using ih

end IdMap

end FsmFabric
