/-!
# Tables of partial functions

`tabulate f start count` lists the values of `f` at `count` numbers from `start` on. It asks for them
one by one and stops at the first failure, so a count that is never reached costs nothing.
-/

namespace FsmFabric

variable {ε α : Type}

/-- The values of `f` at `start`, `start + 1`, …, `count` of them, or the first failure. -/
def tabulate (f : Nat → Except ε α) (start count : Nat) : Except ε (List α) :=
  go [] start count
where
  /-- Adds values to those found before, which are in reverse order. -/
  go (found : List α) (i : Nat) : Nat → Except ε (List α)
    | 0 => .ok found.reverse
    | left + 1 =>
      match f i with
      | .ok a => go (a :: found) (i + 1) left
      | .error e => .error e

private theorem tabulate_go (f : Nat → Except ε α) (found : List α) (start count : Nat) :
    tabulate.go f found start count =
      ((List.range' start count).mapM f).map (found.reverse ++ ·) := by
  induction count generalizing found start with
  | zero => simp [tabulate.go, Except.map, pure, Except.pure]
  | succ count ih =>
    rw [tabulate.go, List.range'_succ, List.mapM_cons]
    cases h : f start with
    | error e => rfl
    | ok a =>
      simp only [ih]
      cases (List.range' (start + 1) count).mapM f <;>
        simp [bind, Except.bind, Except.map, pure, Except.pure]

/-- Tabulating is mapping over the numbers. -/
theorem tabulate_eq_mapM (f : Nat → Except ε α) (start count : Nat) :
    tabulate f start count = (List.range' start count).mapM f := by
  rw [tabulate, tabulate_go]
  cases (List.range' start count).mapM f <;> simp [Except.map]

end FsmFabric
