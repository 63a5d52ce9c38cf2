import FsmFabric.Fault

/-!
# Numbered storage

An `Arena` holds items in the order in which they were added, and hands out their numbers. Items
are replaced but never removed.
-/

namespace FsmFabric

/-- The number of an item in an arena. It has no bound here. In 32 bits only `2 ^ 32` items can be
told apart, so an arena of more items is not described. -/
structure NodeId where
  index : Nat
deriving DecidableEq, Repr

def NodeId.describe (id : NodeId) : String := "NodeId(" ++ toString id.index ++ ")"

structure Arena (α : Type) where
  items : Array α := #[]

namespace Arena

variable {α : Type}

def empty : Arena α := ⟨#[]⟩

def size (a : Arena α) : Nat := a.items.size

def isEmpty (a : Arena α) : Bool := a.items.isEmpty

def add (a : Arena α) (item : α) : NodeId × Arena α :=
  (⟨a.items.size⟩, ⟨a.items.push item⟩)

def get (a : Arena α) (id : NodeId) : Except Fault α :=
  match a.items[id.index]? with
  | some item => .ok item
  | none => .error (.indexOutsideTable id.index a.size)

def set (a : Arena α) (id : NodeId) (item : α) : Except Fault (Arena α) :=
  if id.index < a.size then .ok ⟨a.items.setIfInBounds id.index item⟩
  else .error (.indexOutsideTable id.index a.size)

/-! ## Reading what was added or replaced -/

theorem get_eq_ok {a : Arena α} {id : NodeId} {item : α} :
    a.get id = .ok item ↔ a.items[id.index]? = some item := by
  unfold get
  split <;> simp_all

theorem lt_size_of_get {a : Arena α} {id : NodeId} {item : α} (found : a.get id = .ok item) :
    id.index < a.size := by
  obtain ⟨inside, -⟩ := Array.getElem?_eq_some_iff.1 (get_eq_ok.1 found)
  exact inside

theorem exists_get {a : Arena α} {id : NodeId} (inside : id.index < a.size) :
    ∃ item, a.get id = .ok item :=
  ⟨a.items[id.index], get_eq_ok.2 (Array.getElem?_eq_getElem inside)⟩

theorem get_add_self (a : Arena α) (item : α) : (a.add item).2.get (a.add item).1 = .ok item := by
  simp [get_eq_ok, add]

theorem get_add_of_lt {a : Arena α} {id : NodeId} (inside : id.index < a.size) (item : α) :
    (a.add item).2.get id = a.get id := by
  have apart : id.index ≠ a.items.size := Nat.ne_of_lt inside
  simp only [get, add, Array.getElem?_push, if_neg apart]
  simp [Array.getElem?_eq_getElem inside]

@[simp] theorem size_add (a : Arena α) (item : α) : (a.add item).2.size = a.size + 1 := by
  simp [add, size]

theorem set_eq_ok {a b : Arena α} {id : NodeId} {item : α} (done : a.set id item = .ok b) :
    b.size = a.size ∧ ∀ j, b.get j = if j = id then .ok item else a.get j := by
  unfold set at done
  split at done
  · next inside =>
    cases done
    refine ⟨by simp [size], fun j => ?_⟩
    split
    · next same =>
      subst same
      exact get_eq_ok.2 (Array.getElem?_setIfInBounds_self_of_lt inside)
    · next differs =>
      have apart : id.index ≠ j.index := fun same => differs (by cases j; cases id; simp_all)
      simp [get, size, Array.getElem?_setIfInBounds_ne apart]
  · cases done

theorem exists_set {a : Arena α} {id : NodeId} (inside : id.index < a.size) (item : α) :
    ∃ b, a.set id item = .ok b :=
  ⟨_, if_pos inside⟩

end Arena

end FsmFabric
