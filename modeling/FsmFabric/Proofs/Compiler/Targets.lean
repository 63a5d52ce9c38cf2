import FsmFabric.Proofs.Compiler.Step
import FsmFabric.Proofs.Fabric.Failures

/-!
# Which jumps are accepted

A guarded transition jumps to the word of its target. A declared state has a word. A word that no
declared state occupies may jump to its own number, and from then on that number has a word too. So
a jump to a state that was never declared is accepted if an earlier word, or the word itself, jumps
to itself under that number, and refused otherwise.
-/

namespace FsmFabric

open Edit Assembler

/-- The states that the transitions with a guard jump to. -/
def StateEntry.jumps (e : StateEntry) (room : Nat) : List Nat :=
  (e.transitions.take room).map Transition.target

def IsUndefined (x : Failure Error) : Prop :=
  ∃ target place, x = .refused (.undefinedTarget target place)

theorem IsUndefined.matters {x : Failure Error} (undefined : IsUndefined x) :
    Matters True False x := by
  obtain ⟨target, place, rfl⟩ := undefined
  trivial

namespace Fabric

variable {f : Fabric}

/-! ## Everything but a jump -/

theorem spares_ofChip (chip : Chip) : Spares (Matters True False) (ofChip chip) := by
  have wiring : Spares (Matters True False) chip.wiring := by
    apply Spares.bind (spares_ofFault False.elim)
    intro pins _
    unfold Wiring.resolve
    dsimp only
    split
    · exact .error id
    · apply Spares.bind (spares_ofFault False.elim)
      intro _ _
      apply Spares.bind (spares_ofFault False.elim)
      intro _ _
      rw [tabulate_eq_mapM]
      refine .bind (.mapM fun pin _ => ?_) fun drivers _ => .ok _
      unfold Wiring.driverOf
      apply Spares.bind (spares_ofFault False.elim)
      intro mux _
      split
      · exact .ok _
      · exact .error id
  apply wiring.bind
  intro w _
  apply Spares.bind
  · apply Spares.forM
    intro t _
    apply Spares.bind (spares_ofFault False.elim)
    intro stop _
    split
    · exact .error id
    · exact .ok _
  intro _ _
  exact .bind (spares_ofFault False.elim) fun inputs _ => .ok _

theorem guards_of_ofChip {chip : Chip} (built : ofChip chip = .ok f) :
    f.guards = chip.staticLuts.length := by
  obtain ⟨_, -, -, _, -, rfl⟩ := ofChip_eq_ok.1 built
  rfl

end Fabric

/-! ## Jumps -/

/-- Jumps of an entry to some targets are made. Every target has a word or is the state of the
entry, which has a word afterwards if it is among them. -/
structure StateEntry.Reaches (e : StateEntry) (targets : List Nat) (slots slots' : IdMap Nat) :
    Prop where
  accepted : ∀ target ∈ targets, slots.Has target ∨ target = e.id
  has : ∀ state, slots'.Has state ↔ slots.Has state ∨ state = e.id ∧ e.id ∈ targets

/-- A jump of an entry to one of some targets is refused. -/
def StateEntry.Misses (e : StateEntry) (targets : List Nat) (slots : IdMap Nat)
    (x : Failure Error) : Prop :=
  ∃ target ∈ targets, x = .refused (.undefinedTarget target e.place) ∧ ¬ slots.Has target ∧
    target ≠ e.id

namespace StateEntry

variable {e : StateEntry} {first rest : List Nat} {slots slots₁ slots₂ : IdMap Nat}
  {x : Failure Error}

theorem reaches_nil (e : StateEntry) (slots : IdMap Nat) : e.Reaches [] slots slots where
  accepted target member := by cases member
  has state := by simp

theorem Reaches.append (here : e.Reaches first slots slots₁)
    (later : e.Reaches rest slots₁ slots₂) : e.Reaches (first ++ rest) slots slots₂ where
  accepted target member := by
    rcases List.mem_append.1 member with member | member
    · exact here.accepted target member
    · rcases later.accepted target member with known | own
      · exact ((here.has target).1 known).imp_right And.left
      · exact .inr own
  has state := by
    rw [later.has, here.has, List.mem_append]
    tauto

theorem Reaches.misses (here : e.Reaches first slots slots₁) (later : e.Misses rest slots₁ x) :
    e.Misses (first ++ rest) slots x := by
  obtain ⟨target, member, same, unknown, other⟩ := later
  refine ⟨target, List.mem_append_right _ member, same, fun known => unknown ?_, other⟩
  exact (here.has target).2 (.inl known)

theorem Misses.append (here : e.Misses first slots x) (rest : List Nat) :
    e.Misses (first ++ rest) slots x := by
  obtain ⟨target, member, refused⟩ := here
  exact ⟨target, List.mem_append_left _ member, refused⟩

end StateEntry

namespace Fabric

variable {f : Fabric} {layout : WordLayout} {word : Region} {e : StateEntry} {a a' : Assembly}
  {x : Failure Error} {v : Unit}

theorem reaches_of_slotOf {target slot : Nat} (run : Runs (slotOf e target) a slot a') :
    e.Reaches [target] a.slots a'.slots := by
  have run := runs_get_bind.1 run
  split at run
  · next found =>
    obtain ⟨-, rfl⟩ := runs_pure.1 run
    have known : a.slots.Has target := by simp [IdMap.Has, found]
    refine ⟨fun t member => .inl (List.mem_singleton.1 member ▸ known), fun state => ?_⟩
    refine ⟨.inl, fun has => has.elim id fun own => ?_⟩
    rw [own.1, List.mem_singleton.1 own.2]
    exact known
  · split at run
    · next own =>
      have run := runs_modify_bind.1 run
      obtain ⟨-, rfl⟩ := runs_pure.1 run
      refine ⟨fun t member => .inr ((List.mem_singleton.1 member).trans own), fun state => ?_⟩
      rw [IdMap.has_insert, own]
      simp
    · exact absurd run runs_refuse

theorem misses_of_slotOf {target : Nat} (failed : Fails (slotOf e target) a x) :
    e.Misses [target] a.slots x := by
  have failed := fails_get_bind.1 failed
  split at failed
  · exact absurd failed fails_pure
  · next unknown =>
    split at failed
    · exact absurd (fails_modify_bind.1 failed) fails_pure
    · next other =>
      refine ⟨target, List.mem_singleton_self _, fails_refuse.1 failed, ?_, other⟩
      exact fun has => has unknown

theorem not_isUndefined_of_write {act : BitEdit Unit}
    (failed : Fails (Assembler.write (WordEdit.ofBits act)) a x) : ¬ IsUndefined x := by
  have written : Upholds (fun _ => True) (Matters True False)
      (Assembler.write (WordEdit.ofBits act)) :=
    upholds_write (WordEdit.upholds_ofBits False.elim) fun _ _ _ => trivial
  exact fun undefined => (written a trivial).1 x failed undefined.matters

theorem reaches_of_assembleJump {n : Nat} {t : Transition}
    (run : Runs (assembleJump layout word e n t) a v a') :
    e.Reaches [t.target] a.slots a'.slots := by
  obtain ⟨field, -, run⟩ := runs_ofExcept_bind.1 run
  obtain ⟨slot, a₁, located, run⟩ := runs_bind.1 run
  have reaches := reaches_of_slotOf located
  split at run
  · obtain ⟨r, -, rfl⟩ := runs_write.1 run
    exact reaches
  · exact absurd run runs_refuse

theorem misses_of_assembleJump {n : Nat} {t : Transition}
    (failed : Fails (assembleJump layout word e n t) a x) (undefined : IsUndefined x) :
    e.Misses [t.target] a.slots x := by
  rcases fails_ofExcept_bind.1 failed with absent | ⟨field, -, failed⟩
  · exact absurd undefined.matters (layout.spares_require _ _ x absent)
  rcases fails_bind.1 failed with here | ⟨slot, a₁, -, failed⟩
  · exact misses_of_slotOf here
  split at failed
  · exact absurd undefined (not_isUndefined_of_write failed)
  · rw [fails_refuse.1 failed] at undefined
    exact undefined.matters.elim

/-- The target of transition `n`, unless it stands behind the last guard. -/
def jumpOf (f : Fabric) (n : Nat) (t : Transition) : List Nat :=
  if n ≠ f.guards then [t.target] else []

theorem reaches_of_assembleTransition {n : Nat} {t : Transition}
    (run : Runs (f.assembleTransition layout word e n t) a v a') :
    e.Reaches (f.jumpOf n t) a.slots a'.slots := by
  have run := runs_debug_bind.1 run
  obtain ⟨out, -, run⟩ := runs_ofExcept_bind.1 run
  unfold jumpOf
  split at run
  · next guard =>
    obtain ⟨_, a₁, jumped, run⟩ := runs_bind.1 run
    have reaches := reaches_of_assembleJump jumped
    obtain ⟨r, -, rfl⟩ := runs_write.1 run
    rw [if_pos guard]
    exact reaches
  · next behind =>
    obtain ⟨r, -, rfl⟩ := runs_write.1 run
    rw [if_neg behind]
    exact e.reaches_nil a.slots

theorem misses_of_assembleTransition {n : Nat} {t : Transition}
    (failed : Fails (f.assembleTransition layout word e n t) a x) (undefined : IsUndefined x) :
    e.Misses (f.jumpOf n t) a.slots x := by
  have failed := fails_modify_bind.1 failed
  rcases fails_ofExcept_bind.1 failed with absent | ⟨out, -, failed⟩
  · exact absurd undefined.matters (layout.spares_require _ _ x absent)
  unfold jumpOf
  split at failed
  · next guard =>
    rw [if_pos guard]
    rcases fails_bind.1 failed with here | ⟨_, a₁, -, failed⟩
    · have misses := misses_of_assembleJump here undefined
      exact misses
    · exact absurd undefined (not_isUndefined_of_write failed)
  · exact absurd undefined (not_isUndefined_of_write failed)

def jumpsFrom (f : Fabric) (n : Nat) (ts : List Transition) : List Nat :=
  (ts.take (f.guards - n)).map Transition.target

theorem jumpsFrom_cons {n : Nat} {t : Transition} {rest : List Transition}
    (fits : n + (t :: rest).length ≤ f.guards + 1) :
    f.jumpsFrom n (t :: rest) = f.jumpOf n t ++ f.jumpsFrom (n + 1) rest := by
  rw [List.length_cons] at fits
  unfold jumpsFrom jumpOf
  by_cases behind : n = f.guards
  · have none : f.guards - (n + 1) = 0 := by omega
    simp [behind]
  · have one : f.guards - n = f.guards - (n + 1) + 1 := by omega
    rw [if_pos behind, one, List.take_succ_cons]
    rfl

theorem reaches_of_assembleTransitions {n : Nat} {ts : List Transition}
    (run : Runs (f.assembleTransitions layout word e n ts) a v a')
    (fits : n + ts.length ≤ f.guards + 1) : e.Reaches (f.jumpsFrom n ts) a.slots a'.slots := by
  induction ts generalizing n a with
  | nil =>
    obtain ⟨-, rfl⟩ := runs_pure.1 run
    rw [jumpsFrom, List.take_nil]
    exact e.reaches_nil a.slots
  | cons t rest ih =>
    obtain ⟨_, a₁, here, run⟩ := runs_bind.1 run
    rw [jumpsFrom_cons fits]
    rw [List.length_cons] at fits
    exact (reaches_of_assembleTransition here).append (ih run (by omega))

theorem misses_of_assembleTransitions {n : Nat} {ts : List Transition}
    (failed : Fails (f.assembleTransitions layout word e n ts) a x) (undefined : IsUndefined x)
    (fits : n + ts.length ≤ f.guards + 1) : e.Misses (f.jumpsFrom n ts) a.slots x := by
  induction ts generalizing n a with
  | nil => exact absurd failed fails_pure
  | cons t rest ih =>
    rw [jumpsFrom_cons fits]
    rw [List.length_cons] at fits
    rcases fails_bind.1 failed with here | ⟨_, a₁, ran, failed⟩
    · exact (misses_of_assembleTransition here undefined).append _
    · exact (reaches_of_assembleTransition ran).misses (ih failed (by omega))

theorem reaches_of_assemble (run : Runs (f.assemble layout word e) a v a') :
    e.Reaches (e.jumps f.guards) a.slots a'.slots := by
  unfold assemble at run
  have run := runs_debug_bind.1 run
  split at run
  · next fits =>
    have run := runs_debug_bind.1 run
    obtain ⟨_, a₁, transitions, run⟩ := runs_bind.1 run
    have rest : Upholds (Stays a₁.slots a₁.verbose) (Matters True False)
        (f.assembleRest layout word e) := upholds_assembleRest False.elim
    rw [((rest a₁ ⟨rfl, rfl⟩).2 _ _ run).1]
    have length := StateEntry.length_le_of_fits fits
    exact reaches_of_assembleTransitions transitions (by omega)
  · exact absurd run runs_refuse

theorem misses_of_assemble (failed : Fails (f.assemble layout word e) a x)
    (undefined : IsUndefined x) : e.Misses (e.jumps f.guards) a.slots x := by
  unfold assemble at failed
  have failed := fails_modify_bind.1 failed
  split at failed
  · next fits =>
    have failed := fails_modify_bind.1 failed
    rcases fails_bind.1 failed with here | ⟨_, a₁, -, failed⟩
    · have length := StateEntry.length_le_of_fits fits
      exact misses_of_assembleTransitions here undefined (by omega)
    · have rest : Upholds (Stays a₁.slots a₁.verbose) (Matters True False)
          (f.assembleRest layout word e) := upholds_assembleRest False.elim
      exact absurd undefined.matters ((rest a₁ ⟨rfl, rfl⟩).1 x failed)
  · rw [fails_refuse.1 failed] at undefined
    exact undefined.matters.elim

end Fabric

/-! ## Word after word -/

theorem Placement.has_slots_foldl {b : Builder} {room : Nat} {arms : List (Nat × Arm)}
    {p : Placement} {state : Nat} :
    (arms.foldl (fun p entry => p.add room (b.entryOf entry.1 entry.2)) p).slots.Has state ↔
      p.slots.Has state ∨ state ∈ arms.map Prod.fst := by
  induction arms generalizing p with
  | nil => simp
  | cons entry rest ih =>
    rw [List.foldl_cons, ih, add, IdMap.has_insert, List.map_cons, List.mem_cons, or_assoc]
    rfl

theorem Placement.has_slots {b : Builder} {room state : Nat} :
    (ofBuilder b room).slots.Has state ↔ state ∈ b.states := by
  have empty : ¬ IdMap.Has (IdMap.empty : IdMap Nat) state := fun has => has rfl
  exact has_slots_foldl.trans (or_iff_right empty)

/-- A jump from an entry that is written behind others finds a word: that of a declared state, the
word itself, or an earlier word that jumps to itself. -/
def Builder.Accepts (b : Builder) (room : Nat) (before : List StateEntry) (e : StateEntry)
    (target : Nat) : Prop :=
  target ∈ b.states ∨ target = e.id ∨ ∃ e' ∈ before, e'.id = target ∧ target ∈ e'.jumps room

namespace Compilation

variable {f : Fabric} {b : Builder} {c c' : Compilation} {x : Failure Error} {v : Unit}
  {slot : Nat} {e : StateEntry} {before : List StateEntry}

theorem reaches_of_writeWord (run : Runs (writeWord f slot e) c v c') :
    e.Reaches (e.jumps f.guards) c.slots c'.slots := by
  have run := runs_get_bind.1 run
  obtain ⟨region, -, run⟩ := runs_ofFault_bind.1 run
  obtain ⟨a, assembled, rfl⟩ := runs_zoom.1 run
  exact Fabric.reaches_of_assemble assembled

theorem misses_of_writeWord (failed : Fails (writeWord f slot e) c x) (undefined : IsUndefined x) :
    e.Misses (e.jumps f.guards) c.slots x := by
  have failed := fails_get_bind.1 failed
  rcases fails_ofExcept_bind.1 failed with outside | ⟨region, -, failed⟩
  · exact absurd undefined.matters (spares_ofFault False.elim x outside)
  · obtain ⟨y, assembled, rfl⟩ := fails_zoom.1 failed
    rw [Failure.mapError_id] at undefined ⊢
    exact Fabric.misses_of_assemble assembled undefined

/-- The states with a word are the declared ones and those whose words jump to themselves. -/
def Knows (b : Builder) (room : Nat) (before : List StateEntry) (slots : IdMap Nat) : Prop :=
  ∀ state, slots.Has state ↔ state ∈ b.states ∨ ∃ e ∈ before, e.id = state ∧ state ∈ e.jumps room

theorem Knows.concat {room : Nat} {slots slots' : IdMap Nat} (knows : Knows b room before slots)
    (reaches : e.Reaches (e.jumps room) slots slots') : Knows b room (before ++ [e]) slots' := by
  intro state
  rw [reaches.has, knows]
  constructor
  · rintro ((declared | ⟨e', member, jumps⟩) | ⟨rfl, jumps⟩)
    · exact .inl declared
    · exact .inr ⟨e', List.mem_append_left _ member, jumps⟩
    · exact .inr ⟨e, List.mem_append_right _ (List.mem_singleton_self e), rfl, jumps⟩
  · rintro (declared | ⟨e', member, rfl, jumps⟩)
    · exact .inl (.inl declared)
    · rcases List.mem_append.1 member with member | member
      · exact .inl (.inr ⟨e', member, rfl, jumps⟩)
      · obtain rfl := List.mem_singleton.1 member
        exact .inr ⟨rfl, jumps⟩

theorem Knows.accepts {room : Nat} {slots : IdMap Nat} (knows : Knows b room before slots)
    {target : Nat} : b.Accepts room before e target ↔ slots.Has target ∨ target = e.id := by
  rw [knows, Builder.Accepts, or_assoc, or_comm (b := target = e.id)]

/-- All jumps of the written words were accepted. -/
theorem accepts_of_writeWords {entries : List StateEntry} (knows : Knows b f.guards before c.slots)
    (run : Runs (writeWords f slot entries) c v c') :
    ∀ k e, entries[k]? = some e → ∀ target ∈ e.jumps f.guards,
      b.Accepts f.guards (before ++ entries.take k) e target := by
  induction entries generalizing before c slot with
  | nil =>
    intro k e found
    cases found
  | cons e rest ih =>
    obtain ⟨_, c₁, here, run⟩ := runs_bind.1 run
    have reaches := reaches_of_writeWord here
    intro k e' found target jump
    cases k with
    | zero =>
      cases found
      rw [List.take_zero, List.append_nil, knows.accepts]
      exact reaches.accepted target jump
    | succ k =>
      rw [List.take_succ_cons, List.append_cons]
      exact ih (knows.concat reaches) run k e' found target jump

/-- A refused jump is the first one that is not accepted. -/
theorem refused_of_writeWords {entries : List StateEntry} (knows : Knows b f.guards before c.slots)
    (failed : Fails (writeWords f slot entries) c x) (undefined : IsUndefined x) :
    ∃ k e, entries[k]? = some e ∧
      (∃ target ∈ e.jumps f.guards, x = .refused (.undefinedTarget target e.place) ∧
        ¬ b.Accepts f.guards (before ++ entries.take k) e target) ∧
      ∀ j e', j < k → entries[j]? = some e' → ∀ target ∈ e'.jumps f.guards,
        b.Accepts f.guards (before ++ entries.take j) e' target := by
  induction entries generalizing before c slot with
  | nil => exact absurd failed fails_pure
  | cons e rest ih =>
    rcases fails_bind.1 failed with here | ⟨_, c₁, ran, failed⟩
    · obtain ⟨target, jump, same, unknown, other⟩ := misses_of_writeWord here undefined
      refine ⟨0, e, rfl, ⟨target, jump, same, ?_⟩, fun j e' less => by omega⟩
      rw [List.take_zero, List.append_nil, knows.accepts]
      exact fun accepted => accepted.elim unknown other
    · have reaches := reaches_of_writeWord ran
      obtain ⟨k, e', found, ⟨target, jump, same, refused⟩, earlier⟩ :=
        ih (knows.concat reaches) failed
      refine ⟨k + 1, e', found, ⟨target, jump, same, ?_⟩, fun j e'' less foundJ => ?_⟩
      · rw [List.take_succ_cons, List.append_cons]
        exact refused
      · intro target jump
        cases j with
        | zero =>
          cases foundJ
          rw [List.take_zero, List.append_nil, knows.accepts]
          exact reaches.accepted target jump
        | succ j =>
          rw [List.take_succ_cons, List.append_cons]
          exact earlier j e'' (by omega) foundJ target jump

theorem knows_of_prepare (run : Runs (prepare f b) c v c') :
    c'.image.layout = c.image.layout ∧ Knows b f.guards [] c'.slots := by
  obtain ⟨-, rfl⟩ := runs_prepare run
  refine ⟨rfl, fun state => ?_⟩
  rw [Placement.has_slots]
  simp

/-- Before the first word is written, only a lack of words is refused. -/
theorem refused_of_prepare (failed : Fails (prepare f b) c x) :
    ∃ cause, x = .refused (.capacity cause none) := by
  have failed := fails_modify_bind.1 failed
  have failed := fails_get_bind.1 failed
  simp only at failed
  split at failed
  · rcases fails_bind.1 failed with refused | ⟨_, _, ran, -⟩
    · exact ⟨_, fails_refuse.1 refused⟩
    · exact absurd ran runs_refuse
  · cases failed

end Compilation

namespace Session

def guards (s : Session) : Nat := s.chip.staticLuts.length

def wordEntries (s : Session) (b : Builder) : List StateEntry :=
  b.wordEntries s.guards s.chip.layout.words

/-- A compilation writes the words one after the other, unless it fails before. -/
theorem outcome_of_compile {s : Session} {b : Builder} {result : Result Image}
    (compiled : s.compile b = result) :
    (∃ x, result = .error x ∧ ¬ IsUndefined x) ∨
      ∃ (f : Fabric) (c : Compilation), f.guards = s.guards ∧
        Compilation.Knows b f.guards [] c.slots ∧
        ((∃ c', Runs (Compilation.writeWords f 0 (s.wordEntries b)) c () c' ∧
            result = .ok c'.image) ∨
          ∃ x, Fails (Compilation.writeWords f 0 (s.wordEntries b)) c x ∧ result = .error x) := by
  subst compiled
  unfold compile run
  split
  · next x failed =>
    refine .inl ⟨x, rfl, fun undefined => ?_⟩
    have blank : Spares (Matters True False) (liftM s.blankImage : Result Image) :=
      spares_ofFault False.elim
    have ready := (Fabric.spares_ofChip s.chip).bind fun f _ =>
      blank.bind fun image _ => Spares.ok (f, image)
    exact ready x failed undefined.matters
  · next f image ready =>
    obtain ⟨_, built, ready⟩ := bind_eq_ok.1 ready
    obtain ⟨_, started, ready⟩ := bind_eq_ok.1 ready
    cases ready
    have guards : f.guards = s.guards := Fabric.guards_of_ofChip built
    have layout := (of_blankImage (liftM_eq_ok.1 started)).1
    rw [Compilation.writeMachine_eq]
    split
    · next x c failed =>
      have failed := congrArg Prod.fst failed
      rcases fails_bind.1 failed with early | ⟨_, c₁, prepared, failed⟩
      · obtain ⟨cause, rfl⟩ := Compilation.refused_of_prepare early
        exact .inl ⟨_, rfl, fun undefined => undefined.matters⟩
      · obtain ⟨same, knows⟩ := Compilation.knows_of_prepare prepared
        have failed := fails_get_bind.1 failed
        rw [same, layout, guards] at failed
        exact .inr ⟨f, c₁, guards, knows, .inr ⟨x, failed, rfl⟩⟩
    · next c run =>
      obtain ⟨_, c₁, prepared, run⟩ := runs_bind.1 run
      obtain ⟨same, knows⟩ := Compilation.knows_of_prepare prepared
      have run := runs_get_bind.1 run
      rw [same, layout, guards] at run
      exact .inr ⟨f, c₁, guards, knows, .inl ⟨c, run, rfl⟩⟩

/-- When a machine is compiled, every jump leads to a declared state, to the word itself, or to an
earlier word that jumps to itself. A target is refused as undefined for the first jump of which this
does not hold, so it is not declared and not the state of the word that is written. -/
theorem compile_checks_targets (s : Session) (b : Builder) :
    (∀ image, s.compile b = .ok image → ∀ k e, (s.wordEntries b)[k]? = some e →
      ∀ target ∈ e.jumps s.guards, b.Accepts s.guards ((s.wordEntries b).take k) e target) ∧
    ∀ target place, s.compile b = .error (.refused (.undefinedTarget target place)) →
      ∃ k e, (s.wordEntries b)[k]? = some e ∧ target ∈ e.jumps s.guards ∧ place = e.place ∧
        target ∉ b.states ∧ target ≠ e.id ∧
        ¬ b.Accepts s.guards ((s.wordEntries b).take k) e target ∧
        ∀ j e', j < k → (s.wordEntries b)[j]? = some e' → ∀ earlier ∈ e'.jumps s.guards,
          b.Accepts s.guards ((s.wordEntries b).take j) e' earlier := by
  constructor
  · intro image compiled
    rcases outcome_of_compile compiled with ⟨_, failed, -⟩ | ⟨f, c, guards, knows, written⟩
    · cases failed
    · rcases written with ⟨c', run, -⟩ | ⟨_, -, failed⟩
      · rw [← guards]
        exact Compilation.accepts_of_writeWords knows run
      · cases failed
  · intro target place compiled
    have undefined : IsUndefined (.refused (.undefinedTarget target place)) := ⟨target, place, rfl⟩
    rcases outcome_of_compile compiled with ⟨_, failed, fine⟩ | ⟨f, c, guards, knows, written⟩
    · cases failed
      exact absurd undefined fine
    · rcases written with ⟨_, -, failed⟩ | ⟨_, failed, same⟩
      · cases failed
      · cases same
        rw [← guards]
        obtain ⟨k, e, found, ⟨_, jump, same, refused⟩, earlier⟩ :=
          Compilation.refused_of_writeWords knows failed undefined
        cases same
        exact ⟨k, e, found, jump, rfl, fun declared => refused (.inl declared),
          fun own => refused (.inr (.inl own)), refused, earlier⟩

/-- A machine without declared states that always goes to one state. -/
def goesTo (target : Nat) : Design where
  module := "home"
  events := [.setTarget (some target)]

theorem exists_goesTo_zero :
    ∃ b image e, (goesTo 0).replay = .ok b ∧ oneTable.compile b = .ok image ∧
      (oneTable.wordEntries b)[1]? = some e ∧ 0 ∈ e.jumps oneTable.guards ∧ 0 ∉ b.states ∧
      0 ≠ e.id := by
  obtain ⟨b, image, -, replayed, compiled, -, -⟩ :=
    exists_compiled oneTable (goesTo 0) (fun _ _ _ => True) (by decide +kernel)
  obtain rfl : _ = b := Except.ok.inj replayed
  exact ⟨_, image, _, rfl, compiled, rfl, by decide +kernel⟩

theorem exists_goesTo_one :
    ∃ b, (goesTo 1).replay = .ok b ∧ (oneTable.wordEntries b).map StateEntry.id = [0, 1, 2, 3] ∧
      1 ∉ b.states ∧ oneTable.compile b = .error (.refused (.undefinedTarget 1 none)) :=
  ⟨_, rfl, by decide +kernel, by decide +kernel, by decide +kernel⟩

/-- Neither state 0 nor state 1 is declared. Word 0 jumps to itself, so word 1 may jump to state 0
after it. Word 0 may not jump to state 1, which is also the number of a word. -/
theorem undeclared_target_accepted_behind_its_word :
    (∃ b image e, (goesTo 0).replay = .ok b ∧ oneTable.compile b = .ok image ∧
      (oneTable.wordEntries b)[1]? = some e ∧ 0 ∈ e.jumps oneTable.guards ∧ 0 ∉ b.states ∧
      0 ≠ e.id) ∧
    ∃ b, (goesTo 1).replay = .ok b ∧ (oneTable.wordEntries b).map StateEntry.id = [0, 1, 2, 3] ∧
      1 ∉ b.states ∧ oneTable.compile b = .error (.refused (.undefinedTarget 1 none)) :=
  ⟨exists_goesTo_zero, exists_goesTo_one⟩

/-- The jump of word 1 to state 0 is accepted because of word 0; nothing accepts a jump to state 1
there. -/
theorem compile_checks_targets_goesTo :
    (∃ b image e, (goesTo 0).replay = .ok b ∧ oneTable.compile b = .ok image ∧
      (oneTable.wordEntries b)[1]? = some e ∧ 0 ≠ e.id ∧
      ∃ e' ∈ (oneTable.wordEntries b).take 1, e'.id = 0 ∧ 0 ∈ e'.jumps oneTable.guards) ∧
    ∃ b, (goesTo 1).replay = .ok b ∧
      oneTable.compile b = .error (.refused (.undefinedTarget 1 none)) ∧
      ∃ (k : Nat) (e : StateEntry), (oneTable.wordEntries b)[k]? = some e ∧
        1 ∈ e.jumps oneTable.guards ∧ 1 ≠ e.id := by
  constructor
  · obtain ⟨b, image, e, replayed, compiled, found, jump, undeclared, other⟩ := exists_goesTo_zero
    refine ⟨b, image, e, replayed, compiled, found, other, ?_⟩
    rcases (compile_checks_targets oneTable b).1 image compiled 1 e found 0 jump with
      declared | own | earlier
    · exact absurd declared undeclared
    · exact absurd own other
    · exact earlier
  · obtain ⟨b, replayed, -, -, refused⟩ := exists_goesTo_one
    obtain ⟨k, e, found, jump, -, -, other, -⟩ :=
      (compile_checks_targets oneTable b).2 1 none refused
    exact ⟨b, replayed, refused, k, e, found, jump, other⟩

end Session

end FsmFabric
