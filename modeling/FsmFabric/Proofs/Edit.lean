import FsmFabric.Fault

/-!
# Operations that succeed and fail

`Runs act s a t` says that an operation succeeds in state `s` with value `a` and leaves state `t`.
Each way of building an operation has one rule that takes its success apart. `Fails` does the same
for failures, and `Upholds` follows a property of the state through an operation that never fails in
a certain way. `Maintains` follows one that survives failures.
-/

namespace FsmFabric.Edit

variable {σ τ ε δ α β : Type}

def Runs (act : Edit σ ε α) (s : σ) (a : α) (t : σ) : Prop := act.outcome s = (.ok a, t)

section Rules

variable {s t : σ}

@[simp] theorem runs_pure {a b : α} : Runs (pure a : Edit σ ε α) s b t ↔ a = b ∧ s = t := by
  change (Except.ok a, s) = (Except.ok b, t) ↔ _
  simp

theorem outcome_bind (act : Edit σ ε α) (next : α → Edit σ ε β) (s : σ) :
    (act >>= next).outcome s =
      match act.outcome s with
      | (.ok a, r) => (next a).outcome r
      | (.error e, r) => (.error e, r) := by
  unfold outcome ExceptT.run
  simp only [bind, ExceptT.bind, ExceptT.mk, StateT.bind, ExceptT.bindCont]
  rcases act s with ⟨result, r⟩
  cases result <;> rfl

@[simp] theorem runs_bind {act : Edit σ ε α} {next : α → Edit σ ε β} {b : β} :
    Runs (act >>= next) s b t ↔ ∃ a r, Runs act s a r ∧ Runs (next a) r b t := by
  unfold Runs
  rw [outcome_bind]
  rcases act.outcome s with ⟨result, r⟩
  cases result with
  | error e => exact ⟨nofun, fun ⟨_, _, h, _⟩ => nomatch h⟩
  | ok a =>
    refine ⟨fun h => ⟨a, r, rfl, h⟩, fun ⟨a', r', same, h⟩ => ?_⟩
    cases same
    exact h

@[simp] theorem runs_ofExcept {r : Except (Failure ε) α} {a : α} :
    Runs (ofExcept r : Edit σ ε α) s a t ↔ r = .ok a ∧ s = t := by
  change (r, s) = (Except.ok a, t) ↔ _
  simp

@[simp] theorem runs_ofFault {r : Except Fault α} {a : α} :
    Runs (ofFault r : Edit σ ε α) s a t ↔ r = .ok a ∧ s = t := by
  rw [ofFault, runs_ofExcept, liftM_eq_ok]

@[simp] theorem runs_refuse {e : ε} {a : α} : ¬ Runs (refuse e : Edit σ ε α) s a t := by
  rw [refuse, runs_ofExcept]
  exact fun h => nomatch h.1

@[simp] theorem runs_get {a : σ} : Runs (get : Edit σ ε σ) s a t ↔ s = a ∧ s = t := by
  change (Except.ok s, s) = (Except.ok a, t) ↔ _
  simp

@[simp] theorem runs_modify {f : σ → σ} {a : Unit} :
    Runs (modify f : Edit σ ε Unit) s a t ↔ f s = t := by
  change (Except.ok (), f s) = (Except.ok a, t) ↔ _
  simp

theorem mapError_eq_ok {f : ε → δ} {r : Except ε α} {a : α} : r.mapError f = .ok a ↔ r = .ok a := by
  constructor
  · intro same
    cases r with
    | ok b =>
      cases same
      rfl
    | error e => cases same
  · rintro rfl
    rfl

@[simp] theorem runs_mapError {f : ε → δ} {act : Edit σ ε α} {a : α} :
    Runs (mapError f act) s a t ↔ Runs act s a t := by
  change ((act.outcome s).1.mapError _, (act.outcome s).2) = _ ↔ act.outcome s = _
  simp only [Prod.ext_iff, mapError_eq_ok]

@[simp] theorem runs_zoom {part : σ → τ} {put : σ → τ → σ} {f : ε → δ} {act : Edit τ ε α} {a : α} :
    Runs (zoom part put f act) s a t ↔ ∃ r, Runs act (part s) a r ∧ put s r = t := by
  change ((act.outcome (part s)).1.mapError _, put s (act.outcome (part s)).2) = _ ↔
    ∃ r, act.outcome (part s) = _ ∧ _
  simp [Prod.ext_iff, mapError_eq_ok, and_assoc]

/-! ## Operations behind a step that only looks or replaces -/

theorem runs_ofExcept_bind {r : Except (Failure ε) α} {next : α → Edit σ ε β} {b : β} :
    Runs (ofExcept r >>= next) s b t ↔ ∃ a, r = .ok a ∧ Runs (next a) s b t := by
  simp only [runs_bind, runs_ofExcept]
  exact ⟨fun ⟨a, _, ⟨found, same⟩, rest⟩ => ⟨a, found, same ▸ rest⟩,
    fun ⟨a, found, rest⟩ => ⟨a, s, ⟨found, rfl⟩, rest⟩⟩

theorem runs_ofFault_bind {r : Except Fault α} {next : α → Edit σ ε β} {b : β} :
    Runs (ofFault r >>= next) s b t ↔ ∃ a, r = .ok a ∧ Runs (next a) s b t := by
  simp only [ofFault, runs_ofExcept_bind, liftM_eq_ok]

theorem runs_get_bind {next : σ → Edit σ ε β} {b : β} :
    Runs (get >>= next) s b t ↔ Runs (next s) s b t := by
  simp only [runs_bind, runs_get]
  constructor
  · rintro ⟨_, _, ⟨rfl, rfl⟩, rest⟩
    exact rest
  · exact fun rest => ⟨s, s, ⟨rfl, rfl⟩, rest⟩

theorem runs_modify_bind {f : σ → σ} {next : Unit → Edit σ ε β} {b : β} :
    Runs (modify f >>= next) s b t ↔ Runs (next ()) (f s) b t := by
  simp only [runs_bind, runs_modify]
  exact ⟨fun ⟨_, _, same, rest⟩ => same ▸ rest, fun rest => ⟨(), f s, rfl, rest⟩⟩

theorem runs_forM_cons {act : α → Edit σ ε Unit} {a : α} {l : List α} {b : Unit} :
    Runs ((a :: l).forM act) s b t ↔ ∃ r, Runs (act a) s () r ∧ Runs (l.forM act) r b t := by
  change Runs (act a >>= fun _ => l.forM act) s b t ↔ _
  rw [runs_bind]
  exact ⟨fun ⟨_, r, here, rest⟩ => ⟨r, here, rest⟩, fun ⟨r, here, rest⟩ => ⟨(), r, here, rest⟩⟩

theorem runs_forM_append {act : α → Edit σ ε Unit} {l l' : List α} {b : Unit} :
    Runs ((l ++ l').forM act) s b t ↔ ∃ r, Runs (l.forM act) s () r ∧ Runs (l'.forM act) r b t := by
  induction l generalizing s with
  | nil =>
    refine ⟨fun run => ⟨s, runs_pure.2 ⟨rfl, rfl⟩, run⟩, fun ⟨_, first, run⟩ => ?_⟩
    obtain ⟨-, rfl⟩ := runs_pure.1 first
    exact run
  | cons a rest ih =>
    simp only [List.cons_append, runs_forM_cons, ih]
    exact ⟨fun ⟨r, here, q, first, second⟩ => ⟨q, ⟨r, here, first⟩, second⟩,
      fun ⟨q, ⟨r, here, first⟩, second⟩ => ⟨r, here, q, first, second⟩⟩

/-- A property of the numbers passed so far and the state holds after a loop, if every pass keeps
it. -/
theorem Runs.forRange {act : Nat → Edit σ ε Unit} {start count : Nat} {a : Unit}
    (run : Runs (forRange start count act) s a t) (holds : Nat → σ → Prop) (first : holds start s)
    (pass : ∀ i r r', start ≤ i → i < start + count → holds i r → Runs (act i) r () r' →
      holds (i + 1) r') : holds (start + count) t := by
  induction count generalizing start s with
  | zero =>
    obtain ⟨-, rfl⟩ := runs_pure.1 run
    exact first
  | succ count ih =>
    obtain ⟨_, r, done, rest⟩ := runs_bind.1 run
    rw [show start + (count + 1) = start + 1 + count by omega]
    refine ih rest (pass start s r (by omega) (by omega) first done) fun i q q' le lt => ?_
    exact pass i q q' (by omega) (by omega)

end Rules

/-! ## Errors that do not occur -/

/-- The operation refuses with no error of a kind, whatever state it starts in. -/
def Avoids (act : Edit σ ε α) (bad : ε → Prop) : Prop :=
  ∀ s e, (act.outcome s).1 = .error (.refused e) → ¬ bad e

namespace Avoids

variable {bad : ε → Prop}

theorem bind {act : Edit σ ε α} {next : α → Edit σ ε β} (first : Avoids act bad)
    (rest : ∀ a, Avoids (next a) bad) : Avoids (act >>= next) bad := by
  intro s e failed
  rw [outcome_bind] at failed
  have here := first s e
  generalize act.outcome s = reached at failed here
  obtain ⟨result, r⟩ := reached
  cases result with
  | ok a => exact rest a r e failed
  | error failure =>
    cases failed
    exact here rfl

theorem ofExcept {r : Except (Failure ε) α} (fine : ∀ e, r = .error (.refused e) → ¬ bad e) :
    Avoids (Edit.ofExcept r : Edit σ ε α) bad := by
  intro s e failed
  exact fine e failed

theorem ofFault (r : Except Fault α) : Avoids (Edit.ofFault r : Edit σ ε α) bad := by
  apply ofExcept
  intro e failed
  cases r with
  | ok a => cases failed
  | error fault => cases failed

theorem refuse {e : ε} (fine : ¬ bad e) : Avoids (Edit.refuse e : Edit σ ε α) bad := by
  apply ofExcept
  intro e' failed
  cases failed
  exact fine

theorem forM {act : α → Edit σ ε Unit} (each : ∀ a, Avoids (act a) bad) (l : List α) :
    Avoids (l.forM act) bad := by
  induction l with
  | nil =>
    intro s e failed
    cases failed
  | cons a rest ih => exact (each a).bind fun _ => ih

theorem mapError {f : δ → ε} (fine : ∀ e, ¬ bad (f e)) (act : Edit σ δ α) :
    Avoids (Edit.mapError f act) bad := by
  intro s e failed
  change (act.outcome s).1.mapError (Failure.mapError f) = _ at failed
  cases result : (act.outcome s).1 with
  | ok a =>
    rw [result] at failed
    cases failed
  | error failure =>
    rw [result] at failed
    cases failure with
    | refused e' =>
      cases failed
      exact fine e'
    | fault x => cases failed

end Avoids

/-! ## Operations that fail -/

def Fails (act : Edit σ ε α) (s : σ) (failure : Failure ε) : Prop :=
  (act.outcome s).1 = .error failure

section Failures

variable {s : σ} {x : Failure ε}

theorem fails_pure {a : α} : ¬ Fails (pure a : Edit σ ε α) s x := by
  intro failed
  cases failed

theorem fails_ofExcept {r : Except (Failure ε) α} :
    Fails (ofExcept r : Edit σ ε α) s x ↔ r = .error x := Iff.rfl

theorem fails_refuse {e : ε} : Fails (refuse e : Edit σ ε α) s x ↔ x = .refused e := by
  show Except.error (Failure.refused e) = Except.error x ↔ _
  rw [Except.error.injEq, eq_comm]

/-- An operation fails in its first step, or it runs it and fails in the rest. -/
theorem fails_bind {act : Edit σ ε α} {next : α → Edit σ ε β} :
    Fails (act >>= next) s x ↔ Fails act s x ∨ ∃ a r, Runs act s a r ∧ Fails (next a) r x := by
  unfold Fails Runs
  rw [outcome_bind]
  rcases act.outcome s with ⟨result, r⟩
  cases result with
  | error e =>
    constructor
    · intro failed
      cases failed
      exact .inl rfl
    · rintro (here | ⟨_, _, ran, -⟩)
      · cases here
        rfl
      · cases ran
  | ok a =>
    refine ⟨fun rest => .inr ⟨a, r, rfl, rest⟩, ?_⟩
    rintro (here | ⟨_, _, ran, rest⟩)
    · cases here
    · cases ran
      exact rest

theorem fails_ofExcept_bind {r : Except (Failure ε) α} {next : α → Edit σ ε β} :
    Fails (ofExcept r >>= next) s x ↔ r = .error x ∨ ∃ a, r = .ok a ∧ Fails (next a) s x := by
  simp only [fails_bind, fails_ofExcept, runs_ofExcept]
  exact or_congr_right ⟨fun ⟨a, _, ⟨found, same⟩, rest⟩ => ⟨a, found, same ▸ rest⟩,
    fun ⟨a, found, rest⟩ => ⟨a, s, ⟨found, rfl⟩, rest⟩⟩

theorem fails_get_bind {next : σ → Edit σ ε β} :
    Fails (get >>= next) s x ↔ Fails (next s) s x := Iff.rfl

theorem fails_modify_bind {f : σ → σ} {next : Unit → Edit σ ε β} :
    Fails (modify f >>= next) s x ↔ Fails (next ()) (f s) x := Iff.rfl

theorem mapError_eq_error {f : ε → δ} {r : Except ε α} {e : δ} :
    r.mapError f = .error e ↔ ∃ e', r = .error e' ∧ f e' = e := by
  cases r with
  | ok a =>
    constructor
    · intro same
      cases same
    · rintro ⟨_, same, -⟩
      cases same
  | error e' =>
    constructor
    · intro same
      cases same
      exact ⟨e', rfl, rfl⟩
    · rintro ⟨_, same, rfl⟩
      cases same
      rfl

theorem fails_zoom {part : τ → σ} {put : τ → σ → τ} {f : ε → δ} {act : Edit σ ε α} {t : τ}
    {y : Failure δ} :
    Fails (zoom part put f act) t y ↔ ∃ x, Fails act (part t) x ∧ x.mapError f = y :=
  mapError_eq_error

theorem fails_mapError {f : ε → δ} {act : Edit σ ε α} {y : Failure δ} :
    Fails (mapError f act) s y ↔ ∃ x, Fails act s x ∧ x.mapError f = y :=
  mapError_eq_error

end Failures

/-! ## Answers that are no failure of a certain kind -/

/-- The answer is no failure of a bad kind. -/
def Spares (bad : ε → Prop) (r : Except ε α) : Prop := ∀ x, r = .error x → ¬ bad x

namespace Spares

variable {bad : ε → Prop}

theorem ok (a : α) : Spares bad (.ok a : Except ε α) := by
  intro x failed
  cases failed

theorem error {x : ε} (fine : ¬ bad x) : Spares bad (.error x : Except ε α) := by
  intro y failed
  cases failed
  exact fine

theorem bind {r : Except ε α} {next : α → Except ε β} (first : Spares bad r)
    (rest : ∀ a, r = .ok a → Spares bad (next a)) : Spares bad (r >>= next) := by
  cases r with
  | error x => exact error (first x rfl)
  | ok a => exact rest a rfl

theorem mapM {act : α → Except ε β} {l : List α} (each : ∀ a ∈ l, Spares bad (act a)) :
    Spares bad (l.mapM act) := by
  induction l with
  | nil => exact ok []
  | cons a rest ih =>
    obtain ⟨here, later⟩ := List.forall_mem_cons.1 each
    rw [List.mapM_cons]
    exact here.bind fun b _ => (ih later).bind fun bs _ => ok (b :: bs)

theorem forM {act : α → Except ε PUnit} {l : List α} (each : ∀ a ∈ l, Spares bad (act a)) :
    Spares bad (l.forM act) := by
  induction l with
  | nil => exact ok PUnit.unit
  | cons a rest ih =>
    obtain ⟨here, later⟩ := List.forall_mem_cons.1 each
    exact here.bind fun _ _ => ih later

theorem foldlM {act : β → α → Except ε β} {l : List α} {b : β}
    (each : ∀ b, ∀ a ∈ l, Spares bad (act b a)) : Spares bad (l.foldlM act b) := by
  induction l generalizing b with
  | nil => exact ok b
  | cons a rest ih =>
    rw [List.foldlM_cons]
    exact (each b a List.mem_cons_self).bind fun b' _ =>
      ih fun b'' a' member => each b'' a' (List.mem_cons_of_mem a member)

/-- What is lifted fails only with a fault. -/
theorem liftM {bad : Failure ε → Prop} {r : Except Fault α}
    (fine : Spares (fun fault => bad (.fault fault)) r) :
    Spares bad (liftM r : Except (Failure ε) α) := by
  cases r with
  | ok a => exact ok a
  | error fault => exact error (fine fault rfl)

end Spares

/-! ## A property that an operation keeps -/

/-- In states with a property the operation does not fail in a bad way, and it keeps the
property. -/
def Upholds (inv : σ → Prop) (bad : Failure ε → Prop) (act : Edit σ ε α) : Prop :=
  ∀ s, inv s → (∀ x, Fails act s x → ¬ bad x) ∧ ∀ a t, Runs act s a t → inv t

namespace Upholds

variable {inv : σ → Prop} {bad : Failure ε → Prop} {s : σ}

theorem pure (a : α) : Upholds inv bad (pure a : Edit σ ε α) := by
  intro s holds
  refine ⟨fun x failed => absurd failed fails_pure, fun b t run => ?_⟩
  obtain ⟨-, rfl⟩ := runs_pure.1 run
  exact holds

theorem bind {act : Edit σ ε α} {next : α → Edit σ ε β} (first : Upholds inv bad act)
    (rest : ∀ a, Upholds inv bad (next a)) : Upholds inv bad (act >>= next) := by
  intro s holds
  constructor
  · intro x failed
    rcases fails_bind.1 failed with here | ⟨a, r, ran, later⟩
    · exact (first s holds).1 x here
    · exact (rest a r ((first s holds).2 a r ran)).1 x later
  · intro b t run
    obtain ⟨a, r, ran, later⟩ := runs_bind.1 run
    exact (rest a r ((first s holds).2 a r ran)).2 b t later

theorem refuse {e : ε} (fine : ¬ bad (.refused e)) :
    Upholds inv bad (Edit.refuse e : Edit σ ε α) := by
  intro s _
  refine ⟨fun x failed => ?_, fun a t run => absurd run runs_refuse⟩
  rw [fails_refuse.1 failed]
  exact fine

theorem ofExcept {r : Except (Failure ε) α} (fine : Spares bad r) :
    Upholds inv bad (Edit.ofExcept r : Edit σ ε α) := by
  intro s holds
  refine ⟨fine, fun a t run => ?_⟩
  obtain ⟨-, rfl⟩ := runs_ofExcept.1 run
  exact holds

/-- A decided answer, with what is known about it in the rest. -/
theorem ofExcept_bind {r : Except (Failure ε) α} {next : α → Edit σ ε β}
    (fine : Spares bad r) (rest : ∀ a, r = .ok a → Upholds inv bad (next a)) :
    Upholds inv bad (Edit.ofExcept r >>= next) := by
  intro s holds
  constructor
  · intro x failed
    rcases fails_ofExcept_bind.1 failed with here | ⟨a, found, later⟩
    · exact fine x here
    · exact (rest a found s holds).1 x later
  · intro b t run
    obtain ⟨a, found, later⟩ := runs_ofExcept_bind.1 run
    exact (rest a found s holds).2 b t later

theorem get_bind {next : σ → Edit σ ε β} (rest : ∀ s, inv s → Upholds inv bad (next s)) :
    Upholds inv bad (get >>= next) := by
  intro s holds
  exact ⟨fun x failed => (rest s holds s holds).1 x (fails_get_bind.1 failed),
    fun b t run => (rest s holds s holds).2 b t (runs_get_bind.1 run)⟩

theorem modify {f : σ → σ} (kept : ∀ s, inv s → inv (f s)) :
    Upholds inv bad (modify f : Edit σ ε Unit) := by
  intro s holds
  refine ⟨fun x failed => ?_, fun a t run => runs_modify.1 run ▸ kept s holds⟩
  cases failed

theorem forM {act : α → Edit σ ε Unit} {l : List α}
    (each : ∀ a ∈ l, Upholds inv bad (act a)) : Upholds inv bad (l.forM act) := by
  induction l with
  | nil => exact .pure ()
  | cons a rest ih =>
    obtain ⟨here, later⟩ := List.forall_mem_cons.1 each
    exact here.bind fun _ => ih later

theorem forRange {act : Nat → Edit σ ε Unit} {start count : Nat}
    (each : ∀ i, start ≤ i → i < start + count → Upholds inv bad (act i)) :
    Upholds inv bad (forRange start count act) := by
  induction count generalizing start with
  | zero => exact .pure ()
  | succ count ih =>
    apply (each start (Nat.le_refl start) (by omega)).bind
    intro _
    exact ih fun i low high => each i (by omega) (by omega)

theorem mapError {f : ε → δ} {bad : Failure δ → Prop} {act : Edit σ ε α}
    (inner : Upholds inv (fun x => bad (x.mapError f)) act) :
    Upholds inv bad (Edit.mapError f act) := by
  intro s holds
  constructor
  · intro y failed
    obtain ⟨x, here, rfl⟩ := fails_mapError.1 failed
    exact (inner s holds).1 x here
  · intro a t run
    exact (inner s holds).2 a t (runs_mapError.1 run)

/-- An operation on a part of the state, whose property follows from that of the whole. -/
theorem zoom {part : τ → σ} {put : τ → σ → τ} {f : ε → δ} {whole : τ → Prop}
    {bad : Failure δ → Prop} {act : Edit σ ε α}
    (inner : Upholds inv (fun x => bad (x.mapError f)) act)
    (inside : ∀ t, whole t → inv (part t)) (back : ∀ t s, whole t → inv s → whole (put t s)) :
    Upholds whole bad (Edit.zoom part put f act) := by
  intro t holds
  constructor
  · intro y failed
    obtain ⟨x, here, rfl⟩ := fails_zoom.1 failed
    exact (inner _ (inside t holds)).1 x here
  · intro a t' run
    obtain ⟨r, ran, rfl⟩ := runs_zoom.1 run
    exact back t r holds ((inner _ (inside t holds)).2 a r ran)

/-- An operation that never fails succeeds. -/
theorem exists_runs {act : Edit σ ε α} (upholds : Upholds inv (fun _ => True) act) (holds : inv s) :
    ∃ a t, Runs act s a t := by
  cases result : (act.outcome s).1 with
  | error x => exact absurd trivial ((upholds s holds).1 x result)
  | ok a => exact ⟨a, _, Prod.ext result rfl⟩

end Upholds

/-! ## A property that survives failures -/

/-- The operation keeps a property of the state, whether it succeeds or fails. -/
def Maintains (inv : σ → Prop) (act : Edit σ ε α) : Prop := ∀ s, inv s → inv (act.outcome s).2

namespace Maintains

variable {inv : σ → Prop}

theorem ofExcept (r : Except (Failure ε) α) : Maintains inv (Edit.ofExcept r : Edit σ ε α) :=
  fun _ holds => holds

theorem pure (a : α) : Maintains inv (pure a : Edit σ ε α) := fun _ holds => holds

theorem refuse (e : ε) : Maintains inv (Edit.refuse e : Edit σ ε α) := ofExcept _

theorem modify {f : σ → σ} (kept : ∀ s, inv s → inv (f s)) :
    Maintains inv (modify f : Edit σ ε Unit) := kept

theorem bind {act : Edit σ ε α} {next : α → Edit σ ε β} (first : Maintains inv act)
    (rest : ∀ a, Maintains inv (next a)) : Maintains inv (act >>= next) := by
  intro s holds
  have here := first s holds
  rw [outcome_bind]
  generalize act.outcome s = reached at here ⊢
  obtain ⟨result, r⟩ := reached
  cases result with
  | ok a => exact rest a r here
  | error x => exact here

theorem ofExcept_bind {r : Except (Failure ε) α} {next : α → Edit σ ε β}
    (rest : ∀ a, r = .ok a → Maintains inv (next a)) :
    Maintains inv (Edit.ofExcept r >>= next) := by
  cases r with
  | ok a => exact rest a rfl
  | error x => exact fun _ holds => holds

theorem ofFault_bind {r : Except Fault α} {next : α → Edit σ ε β}
    (rest : ∀ a, r = .ok a → Maintains inv (next a)) :
    Maintains inv (Edit.ofFault r >>= next) := by
  apply ofExcept_bind
  intro a found
  exact rest a (liftM_eq_ok.1 found)

theorem get_bind {next : σ → Edit σ ε β} (rest : ∀ s, Maintains inv (next s)) :
    Maintains inv (get >>= next) := fun s holds => rest s s holds

theorem forM {act : α → Edit σ ε Unit} {l : List α} (each : ∀ a ∈ l, Maintains inv (act a)) :
    Maintains inv (l.forM act) := by
  induction l with
  | nil => exact pure ()
  | cons a rest ih =>
    obtain ⟨here, later⟩ := List.forall_mem_cons.1 each
    exact here.bind fun _ => ih later

theorem forRange {act : Nat → Edit σ ε Unit} (start count : Nat)
    (each : ∀ i, Maintains inv (act i)) : Maintains inv (forRange start count act) := by
  induction count generalizing start with
  | zero => exact pure ()
  | succ count ih => exact (each start).bind fun _ => ih (start + 1)

theorem mapError {f : ε → δ} {act : Edit σ ε α} (inner : Maintains inv act) :
    Maintains inv (Edit.mapError f act) := inner

theorem zoom {part : τ → σ} {put : τ → σ → τ} {f : ε → δ} {whole : τ → Prop} {act : Edit σ ε α}
    (inner : Maintains inv act) (inside : ∀ t, whole t → inv (part t))
    (back : ∀ t s, whole t → inv s → whole (put t s)) :
    Maintains whole (Edit.zoom part put f act) :=
  fun t holds => back t _ holds (inner _ (inside t holds))

end Maintains

/-! ## Operations that are the same -/

theorem ofFault_ok_bind (a : α) (next : α → Edit σ ε β) :
    (ofFault (.ok a) >>= next : Edit σ ε β) = next a := rfl

theorem forRange_eq_forM (start count : Nat) (act : Nat → Edit σ ε Unit) :
    forRange start count act = (List.range' start count).forM act := by
  induction count generalizing start with
  | zero => rfl
  | succ count ih =>
    rw [forRange, ih]
    rfl

theorem forM_map (f : α → β) (act : β → Edit σ ε Unit) (l : List α) :
    (l.map f).forM act = l.forM fun a => act (f a) := by
  induction l with
  | nil => rfl
  | cons a rest ih =>
    show (act (f a) >>= fun _ => (rest.map f).forM act) = _
    rw [ih]
    rfl

theorem outcome_mapError (f : ε → δ) (act : Edit σ ε α) (s : σ) :
    (mapError f act).outcome s =
      ((act.outcome s).1.mapError (Failure.mapError f), (act.outcome s).2) := rfl

theorem mapError_forM (f : ε → δ) (act : α → Edit σ ε Unit) (l : List α) :
    mapError f (l.forM act) = l.forM fun a => mapError f (act a) := by
  induction l with
  | nil => rfl
  | cons a rest ih =>
    show mapError f (act a >>= fun _ => rest.forM act) = mapError f (act a) >>= fun _ => rest.forM _
    rw [← ih]
    funext s
    show (mapError f (act a >>= fun _ => rest.forM act)).outcome s =
      (mapError f (act a) >>= fun _ => mapError f (rest.forM act)).outcome s
    rw [outcome_bind, outcome_mapError, outcome_mapError, outcome_bind]
    rcases (act a).outcome s with ⟨result, t⟩
    cases result <;> rfl

theorem forM_congr {act act' : α → Edit σ ε Unit} {l : List α} (same : ∀ a ∈ l, act a = act' a) :
    l.forM act = l.forM act' := by
  induction l with
  | nil => rfl
  | cons a rest ih =>
    obtain ⟨here, later⟩ := List.forall_mem_cons.1 same
    show (act a >>= fun _ => rest.forM act) = (act' a >>= fun _ => rest.forM act')
    rw [here, ih later]

end FsmFabric.Edit
