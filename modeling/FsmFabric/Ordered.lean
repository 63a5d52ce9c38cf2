/-!
# Pairs in order

Pairs are ordered by their first components, then by their second ones. In pairs that are in
ascending order a first component is found by halving.
-/

namespace FsmFabric.Ordered

def le (a b : Nat × Nat) : Bool := a.1 < b.1 || (a.1 == b.1 && a.2 ≤ b.2)

/-- Inserts a pair in front of the first one that is not before it. -/
def insert (a : Nat × Nat) : List (Nat × Nat) → List (Nat × Nat)
  | [] => [a]
  | b :: rest => if le a b then a :: b :: rest else b :: insert a rest

def sort : List (Nat × Nat) → List (Nat × Nat)
  | [] => []
  | a :: rest => insert a (sort rest)

/-- The first two neighbours with the same first component. -/
def repeated? : List (Nat × Nat) → Option Nat
  | a :: b :: rest => if a.1 = b.1 then some a.1 else repeated? (b :: rest)
  | _ => none

/-- Where a first component stands in pairs in ascending order, or the place in front of which it
would have to be inserted. -/
inductive Place where
  | found (index : Nat)
  | gap (index : Nat)
deriving DecidableEq, Repr

/-- Narrows `size` places from `base` on down to one, in at most `passes` passes. A pass looks at the
place in the middle, and goes on with the part in front of it if the key is smaller. -/
def narrow (l : List (Nat × Nat)) (key : Nat) : Nat → Nat → Nat → Nat
  | 0, base, _ => base
  | passes + 1, base, size =>
    if size ≤ 1 then base
    else
      let half := size / 2
      let smaller := (l[base + half]?).any fun pair => key < pair.1
      narrow l key passes (if smaller then base else base + half) (size - half)

/-- Searches pairs in ascending order for a first component. -/
def search (l : List (Nat × Nat)) (key : Nat) : Place :=
  let base := narrow l key l.length 0 l.length
  match l[base]? with
  | none => .gap base
  | some pair =>
    if pair.1 = key then .found base
    else if pair.1 < key then .gap (base + 1)
    else .gap base

end FsmFabric.Ordered
