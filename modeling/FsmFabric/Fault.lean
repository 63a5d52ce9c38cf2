/-!
# Ways to stop without an answer

An operation refuses bad input with an error that its user reads. Apart from that, a caller can
break a contract: ask for an index outside a table, or for a number outside the 64-bit range in
which every position and size lives. Such a request has no answer and is a `Fault`.
-/

namespace FsmFabric

/-- A broken contract between an operation and its caller. -/
inductive Fault where
  /-- A position at or past the end of an offset group. -/
  | bitOutsideOffset (bit count : Nat)
  /-- A slice that reaches past the end of the group it is cut from. -/
  | sliceOutsideGroup (offset count size : Nat)
  /-- A position at or past the end of a slice. -/
  | bitOutsideSlice (bit count : Nat)
  /-- A word index at or past the number of words. -/
  | wordOutsideImage (index : Nat)
  /-- A table lookup past the end of the table. -/
  | indexOutsideTable (index size : Nat)
  /-- A lookup table programmed through the wrong number of pins. -/
  | pinCount (pins expected : Nat)
  /-- A table column that is too wide to be filled with blanks. -/
  | columnTooWide (width : Nat)
  /-- A table of `count` entries that no memory can hold. -/
  | tooManyEntries (count : Nat)
  /-- A number below zero or at or above `2 ^ 64`. -/
  | range
deriving DecidableEq, Repr

/-- The description of a fault, for those that have one. -/
def Fault.message? : Fault → Option String
  | bitOutsideOffset bit count => some s!"bit {bit} outside offset group of {count}"
  | sliceOutsideGroup offset count size => some s!"slice {offset}+{count} outside group of {size}"
  | bitOutsideSlice bit count => some s!"bit {bit} outside slice of {count}"
  | wordOutsideImage index => some s!"word {index} outside image"
  | indexOutsideTable .. | pinCount .. | columnTooWide .. | tooManyEntries .. | range => none

/-- Why an operation did not finish: it refused with an error, or its contract was broken. -/
inductive Failure (ε : Type) where
  | refused (error : ε)
  | fault (fault : Fault)
deriving DecidableEq, Repr

def Failure.mapError {ε δ : Type} (f : ε → δ) : Failure ε → Failure δ
  | refused e => refused (f e)
  | fault x => fault x

instance {ε : Type} : MonadLift (Except Fault) (Except (Failure ε)) where
  monadLift
    | .ok a => .ok a
    | .error f => .error (.fault f)

@[simp] theorem liftM_ok {ε α : Type} (a : α) :
    (liftM (Except.ok a : Except Fault α) : Except (Failure ε) α) = .ok a := rfl

theorem liftM_eq_ok {ε α : Type} {act : Except Fault α} {a : α} :
    (liftM act : Except (Failure ε) α) = .ok a ↔ act = .ok a := by
  cases act with
  | error fault => exact ⟨nofun, nofun⟩
  | ok b => simp

theorem pure_eq_ok {ε α : Type} {a b : α} : (pure a : Except ε α) = .ok b ↔ a = b :=
  Except.ok.injEq a b ▸ Iff.rfl

theorem bind_eq_ok {ε α β : Type} {act : Except ε α} {next : α → Except ε β} {b : β} :
    act >>= next = .ok b ↔ ∃ a, act = .ok a ∧ next a = .ok b := by
  cases act with
  | error e => exact ⟨nofun, fun ⟨_, h, _⟩ => nomatch h⟩
  | ok a => exact ⟨fun h => ⟨a, rfl, h⟩, fun ⟨_, same, h⟩ => Except.ok.inj same ▸ h⟩

theorem toOption_eq_some {ε α : Type} {r : Except ε α} {a : α} :
    r.toOption = some a ↔ r = .ok a := by
  cases r with
  | error e => exact ⟨nofun, nofun⟩
  | ok b => simp [Except.toOption]

theorem liftM_eq_fault {ε α : Type} {act : Except Fault α} {fault : Fault} :
    (liftM act : Except (Failure ε) α) = .error (.fault fault) ↔ act = .error fault := by
  cases act with
  | error other =>
    show Except.error (Failure.fault other) = Except.error (Failure.fault fault) ↔ _
    rw [Except.error.injEq, Except.error.injEq, Failure.fault.injEq]
  | ok a => exact ⟨nofun, nofun⟩

theorem bind_eq_error {ε α β : Type} {act : Except ε α} {next : α → Except ε β} {e : ε} :
    act >>= next = .error e ↔ act = .error e ∨ ∃ a, act = .ok a ∧ next a = .error e := by
  cases act with
  | error other =>
    show Except.error other = Except.error e ↔ _
    exact ⟨fun same => .inl (Except.error.inj same ▸ rfl), fun
      | .inl same => Except.error.inj same ▸ rfl
      | .inr ⟨_, same, _⟩ => nomatch same⟩
  | ok a =>
    exact ⟨fun failed => .inr ⟨a, rfl, failed⟩, fun
      | .inl same => nomatch same
      | .inr ⟨_, same, failed⟩ => Except.ok.inj same ▸ failed⟩

/-! ## Index arithmetic in 64 bits -/

namespace Checked

/-- One more than the largest index or size. -/
def limit : Nat := UInt64.size

/-- A number, provided that it is below the limit. -/
def within (n : Nat) : Except Fault Nat :=
  if n < limit then .ok n else .error .range

theorem within_eq_ok {n m : Nat} : within n = .ok m ↔ n < limit ∧ n = m := by
  unfold within
  split <;> simp [*]

theorem within_eq_error {n : Nat} {fault : Fault} :
    within n = .error fault ↔ limit ≤ n ∧ fault = .range := by
  unfold within
  split
  · next small => simp [Nat.not_le.2 small]
  · next large => simp [Nat.not_lt.1 large, eq_comm]

def add (a b : Nat) : Except Fault Nat := within (a + b)

def mul (a b : Nat) : Except Fault Nat := within (a * b)

def sub (a b : Nat) : Except Fault Nat :=
  if b ≤ a then .ok (a - b) else .error .range

theorem sub_eq_ok {a b m : Nat} : sub a b = .ok m ↔ b ≤ a ∧ a - b = m := by
  unfold sub
  split <;> simp [*]

/-- Room for a table of `count` entries of `bytes` bytes each, which must take less than `2 ^ 63` bytes
together. -/
def room (count bytes : Nat) : Except Fault Unit :=
  if count * bytes < 1 <<< 63 then .ok () else .error (.tooManyEntries count)

def twoPow (n : Nat) : Except Fault Nat :=
  if n < 64 then .ok (1 <<< n) else .error .range

theorem twoPow_eq_ok {n m : Nat} : twoPow n = .ok m ↔ n < 64 ∧ 1 <<< n = m := by
  unfold twoPow
  split <;> simp [*]

end Checked

/-- An operation on a state that keeps what it has written when it fails. -/
abbrev Edit (σ ε : Type) := ExceptT (Failure ε) (StateM σ)

namespace Edit

variable {σ τ ε δ α : Type}

/-- Runs an operation and gives its outcome with the state it leaves. -/
def outcome (act : Edit σ ε α) (s : σ) : Except (Failure ε) α × σ :=
  act.run s

/-- An answer that is already decided, with the state untouched. -/
def ofExcept (r : Except (Failure ε) α) : Edit σ ε α :=
  ExceptT.mk fun s => (r, s)

def refuse (e : ε) : Edit σ ε α :=
  ofExcept (.error (.refused e))

/-- An answer that may be a fault, with the state untouched. -/
def ofFault (r : Except Fault α) : Edit σ ε α :=
  ofExcept (liftM r)

/-- Runs an operation for `count` numbers from `start` on, in ascending order. -/
def forRange (start : Nat) : Nat → (Nat → Edit σ ε Unit) → Edit σ ε Unit
  | 0, _ => pure ()
  | count + 1, act => do
    act start
    forRange (start + 1) count act

def mapError (f : ε → δ) (act : Edit σ ε α) : Edit σ δ α :=
  ExceptT.mk fun s =>
    let (r, s) := act.outcome s
    (r.mapError (Failure.mapError f), s)

/-- Runs an operation on a part of a larger state. -/
def zoom (part : τ → σ) (put : τ → σ → τ) (f : ε → δ) (act : Edit σ ε α) : Edit τ δ α :=
  ExceptT.mk fun t =>
    let (r, s) := act.outcome (part t)
    (r.mapError (Failure.mapError f), put t s)

end Edit

end FsmFabric
