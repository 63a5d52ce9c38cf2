import FsmFabric.Proofs.Diagram.Reachable

/-!
# Links and effects

The nodes that the root of a draft leads to form a finite tree in which no node is reached twice,
and the sides recorded for the open branches lead to what is visible. An assignment therefore
reaches exactly the states and inputs that take the recorded side of every open branch.
-/

namespace FsmFabric

namespace Arena

def follow (nodes : Arena Node) : NodeId → List Bool → Option NodeId
  | id, [] => some id
  | id, side :: sides =>
    match nodes.get id with
    | .ok (.branch _ yes no) => nodes.follow (if side then yes else no) sides
    | _ => none

/-- The leaf that is reached from a node in a state for given inputs. -/
inductive Reaches (nodes : Arena Node) (state : Nat) (x : Nat → Bool) :
    NodeId → Mask × Option Nat → Prop
  | leaf {id : NodeId} {output : Mask} {target : Option Nat}
      (here : nodes.get id = .ok (.leaf output target)) :
      Reaches nodes state x id (output, target)
  | branch {id yes no : NodeId} {test : Test} {found : Mask × Option Nat}
      (here : nodes.get id = .ok (.branch test yes no))
      (below : Reaches nodes state x (if test.holds state x then yes else no) found) :
      Reaches nodes state x id found

end Arena

namespace Draft

/-- The links of a draft make a tree, and the open branches lie on the way to what is visible. -/
structure Linked (d : Draft) : Prop where
  /-- No link leads out of the arena. -/
  stored : ∀ path id, d.nodes.follow d.root path = some id → ∃ node, d.nodes.get id = .ok node
  /-- No way down is endless. -/
  finite : ∀ path id, d.nodes.follow d.root path = some id → path.length < d.nodes.size
  /-- No node is reached in two ways. -/
  unique : ∀ path path' id, d.nodes.follow d.root path = some id →
    d.nodes.follow d.root path' = some id → path = path'
  /-- The recorded sides of the outer branches lead to each open branch. -/
  scopes : ∀ inner s outer, d.scopes = inner ++ s :: outer →
    d.nodes.follow d.root (outer.map (·.visitYes)).reverse = some s.branch ∧
      ∃ test yes no, d.nodes.get s.branch = .ok (.branch test yes no)
  /-- All recorded sides lead to what is visible. -/
  current : d.nodes.follow d.root (d.scopes.map (·.visitYes)).reverse = some d.current
  /-- The diagram says where its nodes lead. -/
  reaches : ∀ state x, d.nodes.Reaches state x d.root (d.diagram.walk state x)

/-- A state with inputs that takes the recorded side of every open branch. -/
def Visible (d : Draft) (state : Nat) (x : Nat → Bool) : Prop :=
  ∀ s ∈ d.scopes, ∃ test yes no, d.nodes.get s.branch = .ok (.branch test yes no) ∧
    test.holds state x = s.visitYes

end Draft

/-! ## Ways down a subtree -/

namespace Subtree

def descend : Subtree → List Bool → Option Subtree
  | t, [] => some t
  | leaf .., _ :: _ => none
  | branch _ _ yes no, side :: sides => if side then yes.descend sides else no.descend sides

theorem descend_append (t : Subtree) (path path' : List Bool) :
    t.descend (path ++ path') = (t.descend path).bind (·.descend path') := by
  induction path generalizing t with
  | nil => cases t <;> rfl
  | cons side sides ih =>
    cases t with
    | leaf => rfl
    | branch id test yes no =>
      simp only [List.cons_append, descend]
      split <;> exact ih _

theorem ids_of_descend {t u : Subtree} {path : List Bool} (found : t.descend path = some u) :
    u.ids ⊆ t.ids := by
  induction t generalizing path with
  | leaf =>
    cases path with
    | nil => cases found; exact List.Subset.refl _
    | cons => cases found
  | branch id test yes no ihy ihn =>
    cases path with
    | nil => cases found; exact List.Subset.refl _
    | cons side sides =>
      simp only [descend] at found
      intro i member
      split at found
      · exact List.mem_cons_of_mem _ (List.mem_append_left _ (ihy found member))
      · exact List.mem_cons_of_mem _ (List.mem_append_right _ (ihn found member))

theorem length_of_descend {t u : Subtree} {path : List Bool} (found : t.descend path = some u) :
    path.length < t.height := by
  induction t generalizing path with
  | leaf =>
    cases path with
    | nil => exact Nat.one_pos
    | cons => cases found
  | branch id test yes no ihy ihn =>
    cases path with
    | nil => exact Nat.succ_pos _
    | cons side sides =>
      simp only [descend] at found
      simp only [height, List.length_cons]
      split at found
      · have := ihy found
        omega
      · have := ihn found
        omega

/-- Where all numbers differ, only one way leads to a number. -/
theorem eq_of_descend {t u v : Subtree} {path path' : List Bool} (nodup : t.ids.Nodup)
    (found : t.descend path = some u) (found' : t.descend path' = some v) (same : u.id = v.id) :
    path = path' := by
  induction t generalizing path path' with
  | leaf =>
    cases path with
    | cons => cases found
    | nil =>
      cases path' with
      | cons => cases found'
      | nil => rfl
  | branch id test yes no ihy ihn =>
    obtain ⟨top, nodup⟩ := List.nodup_cons.1 nodup
    obtain ⟨nodupY, nodupN, apart⟩ := List.nodup_append.1 nodup
    -- a way of at least one step ends in one of the sides, not at the top
    have below {side : Bool} {sides : List Bool} {w : Subtree}
        (found : (branch id test yes no).descend (side :: sides) = some w) :
        w.id ∈ (if side then yes else no).ids := by
      have descended : (if side then yes else no).descend sides = some w := by
        cases side <;> exact found
      exact ids_of_descend descended w.id_mem_ids
    have inside {side : Bool} {i : NodeId} (member : i ∈ (if side then yes else no).ids) :
        i ∈ yes.ids ++ no.ids := by
      cases side
      · exact List.mem_append_right _ member
      · exact List.mem_append_left _ member
    cases path with
    | nil =>
      cases path' with
      | nil => rfl
      | cons side' sides' =>
        cases found
        have reached := inside (below found')
        exact absurd (same.symm ▸ reached : (branch id test yes no).id ∈ _) top
    | cons side sides =>
      cases path' with
      | nil =>
        cases found'
        have reached := inside (below found)
        exact absurd (same ▸ reached : (branch id test yes no).id ∈ _) top
      | cons side' sides' =>
        have here := below found
        have here' := same ▸ below found'
        cases side <;> cases side'
        · exact congrArg _ (ihn nodupN found found')
        · exact absurd rfl (apart _ here' _ here)
        · exact absurd rfl (apart _ here _ here')
        · exact congrArg _ (ihy nodupY found found')

theorem Stored.follow {t : Subtree} {nodes : Arena Node} (stored : t.Stored nodes)
    (path : List Bool) : nodes.follow t.id path = (t.descend path).map id := by
  induction t generalizing path with
  | leaf id output target =>
    have here : nodes.get id = .ok (.leaf output target) := stored
    cases path with
    | nil => rfl
    | cons side sides =>
      change nodes.follow id (side :: sides) = none
      rw [Arena.follow, here]
  | branch id test yes no ihy ihn =>
    obtain ⟨top, left, right⟩ := stored
    cases path with
    | nil => rfl
    | cons side sides =>
      change nodes.follow id (side :: sides) = _
      rw [Arena.follow, top]
      cases side
      · exact ihn right sides
      · exact ihy left sides

theorem Stored.reaches {t : Subtree} {nodes : Arena Node} (stored : t.Stored nodes) (state : Nat)
    (x : Nat → Bool) : nodes.Reaches state x t.id (t.diagram.walk state x) := by
  induction t with
  | leaf id output target => exact .leaf stored
  | branch id test yes no ihy ihn =>
    obtain ⟨top, left, right⟩ := stored
    refine .branch top ?_
    simp only [diagram, Diagram.walk]
    split
    · exact ihy left
    · exact ihn right

end Subtree

/-- The visible sides of open branches, read from the root, lead to the focus. -/
theorem descend_plug (frames : List Frame) (t : Subtree) :
    (plug frames t).descend (frames.map (·.visitYes)).reverse = some t := by
  induction frames generalizing t with
  | nil => cases t <;> rfl
  | cons f rest ih =>
    rw [plug, List.foldl_cons, ← plug, List.map_cons, List.reverse_cons, Subtree.descend_append,
      ih (f.close t), Option.bind_some, Frame.close]
    split
    · next yes => rw [yes]; cases t <;> rfl
    · next no => rw [Bool.eq_false_iff.2 no]; cases t <;> rfl

namespace Draft

variable {d : Draft} {focus : Subtree} {frames : List Frame}

theorem Shows.linked (shown : d.Shows focus frames) : d.Linked := by
  have stored : (plug frames focus).Stored d.nodes := stored_plug.2 ⟨shown.stored, shown.framed⟩
  have nodup := (ids_plug frames focus).nodup_iff.2 shown.nodup
  have root : d.root = (plug frames focus).id := shown.root.trans (id_plug frames focus).symm
  have sides : d.scopes.map (·.visitYes) = frames.map (·.visitYes) := by
    rw [shown.scopes, List.map_map]
    rfl
  -- every way from the root is a way down the subtree at the root
  have followed {path : List Bool} {id : NodeId} (found : d.nodes.follow d.root path = some id) :
      ∃ u, (plug frames focus).descend path = some u ∧ u.id = id := by
    rw [root, stored.follow] at found
    exact Option.map_eq_some_iff.1 found
  constructor
  case stored =>
    intro path id found
    obtain ⟨u, below, rfl⟩ := followed found
    exact Arena.exists_get (stored.index_lt _ (Subtree.ids_of_descend below u.id_mem_ids))
  case finite =>
    intro path id found
    obtain ⟨u, below, rfl⟩ := followed found
    exact (Subtree.length_of_descend below).trans_le (stored.height_le_size nodup)
  case unique =>
    intro path path' id found found'
    obtain ⟨u, below, rfl⟩ := followed found
    obtain ⟨v, below', same⟩ := followed found'
    exact Subtree.eq_of_descend nodup below below' same.symm
  case scopes =>
    intro inner s outer cut
    rw [shown.scopes] at cut
    obtain ⟨fi, rest, rfl, -, cut⟩ := List.map_eq_append_iff.1 cut
    obtain ⟨f, fo, rfl, rfl, rfl⟩ := List.map_eq_cons_iff.1 cut
    -- the branch closed around all that lies below it is what the outer branches lead to
    have whole : plug (fi ++ f :: fo) focus = plug fo (f.close (plug fi focus)) := by
      rw [plug, List.foldl_append]
      rfl
    rw [whole] at stored root
    have here := f.stored_close.1 (stored_plug.1 stored).1
    constructor
    · have outer : (fo.map Frame.scope).map (·.visitYes) = fo.map (·.visitYes) := by
        rw [List.map_map]
        rfl
      rw [outer, root, stored.follow, descend_plug, Option.map_some, f.id_close]
      rfl
    · have node := here.1
      unfold Frame.node at node
      split at node <;> exact ⟨_, _, _, node⟩
  case current =>
    rw [sides, root, stored.follow, descend_plug, shown.current]
    rfl
  case reaches =>
    intro state x
    rw [shown.diagram, root]
    exact stored.reaches state x

theorem Shows.visible_iff (shown : d.Shows focus frames) {state : Nat} {x : Nat → Bool} :
    d.Visible state x ↔ ∀ f ∈ frames, f.Admits state x := by
  unfold Visible
  rw [shown.scopes, List.forall_mem_map]
  refine forall₂_congr fun f member => ?_
  obtain ⟨yes, no, here⟩ := shown.framed.get member
  refine ⟨fun ⟨test, yes', no', found, taken⟩ => ?_, fun admits => ⟨_, _, _, here, admits⟩⟩
  cases here.symm.trans found
  exact taken

/-- Changing the visible leaves changes what is reached exactly where it is visible. -/
theorem Shows.walk_changeLeaves (shown : d.Shows focus frames)
    (change : Mask × Option Nat → Mask × Option Nat) :
    ∃ d', d.changeLeaves change = .ok d' ∧ ∀ state x,
      (d.Visible state x → d'.diagram.walk state x = change (d.diagram.walk state x)) ∧
      (¬ d.Visible state x → d'.diagram.walk state x = d.diagram.walk state x) := by
  obtain ⟨d', done, shown'⟩ := shown.exists_changeLeaves change
  refine ⟨d', done, fun state x => ?_⟩
  rw [shown.visible_iff, shown'.diagram, shown.diagram]
  constructor
  · intro admits
    rw [walk_plug_of_admits admits, walk_plug_of_admits admits, Subtree.diagram_mapLeaves,
      Diagram.walk_mapLeaves]
  · exact fun hidden => walk_plug_congr fun admits => absurd admits hidden

/-- Opening a branch does not change what is reached. -/
theorem Asks.walk_split (asks : d.Asks (·.isCoerced) focus frames) (test : Test) :
    ∃ d', d.split test = .ok d' ∧ ∀ state x,
      d'.diagram.walk state x = d.diagram.walk state x := by
  obtain ⟨d', id, copy, done, meaning, shown'⟩ := asks.shown.exists_split test
  refine ⟨d', done, fun state x => ?_⟩
  rw [shown'.diagram, asks.shown.diagram]
  change (plug frames (Frame.close _ focus)).diagram.walk state x = _
  refine walk_plug_congr fun _ => ?_
  rw [Frame.walk_close, meaning, Diagram.walk_simplify asks.focus, ite_self]

/-- Changing sides does not change the diagram. -/
theorem Shows.diagram_visit {f : Frame} {rest : List Frame} (shown : d.Shows focus (f :: rest))
    (side : Bool) : ∃ d', d.visit side = .ok d' ∧ d'.diagram = d.diagram := by
  obtain ⟨d', done, shown'⟩ := shown.exists_visit side
  refine ⟨d', done, ?_⟩
  rw [shown.diagram]
  split at shown'
  · exact shown'.diagram
  · rw [shown'.diagram]
    exact congrArg (fun t => (plug rest t).diagram) (f.close_flip focus)

end Draft

namespace Builder

/-- What the operations do to the leaf that is reached. -/
structure Effects (b : Builder) : Prop where
  split : ∀ condition, ∃ b', b.split condition = .ok b' ∧
    ∀ state x, b'.walk state x = b.walk state x
  splitState : ∀ id place, id ∉ b.states → ∃ b', b.splitState id place = .ok b' ∧
    ∀ state x, b'.walk state x = b.walk state x
  visit : ∀ side, b.draft.scopes ≠ [] → ∃ b', b.visit side = .ok b' ∧
    ∀ state x, b'.walk state x = b.walk state x
  /-- Only the bit changes, and only where it is visible. -/
  assign : ∀ bit value, bit + 1 < Checked.limit →
    ∃ b', b.assign (.output bit) value = .ok b' ∧ ∀ state x,
      (b.draft.Visible state x →
        (∀ i, (b'.walk state x).1.get i =
          if i = bit then value else (b.walk state x).1.get i) ∧
        (b'.walk state x).2 = (b.walk state x).2) ∧
      (¬ b.draft.Visible state x → b'.walk state x = b.walk state x)
  /-- Only the target changes, and only where it is visible. -/
  setTarget : ∀ target, ∃ b', b.setTarget target = .ok b' ∧ ∀ state x,
    (b.draft.Visible state x → b'.walk state x = ((b.walk state x).1, target)) ∧
    (¬ b.draft.Visible state x → b'.walk state x = b.walk state x)

variable {b : Builder} {focus : Subtree} {frames : List Frame}

theorem effects_of_asks (asks : b.draft.Asks (·.isCoerced) focus frames) : b.Effects := by
  constructor
  case split =>
    intro condition
    obtain ⟨d, drafted, same⟩ := asks.walk_split (.condition condition)
    exact ⟨_, split_eq_ok.2 ⟨d, drafted, rfl⟩, same⟩
  case splitState =>
    intro id place new
    obtain ⟨d, drafted, same⟩ := asks.walk_split (.state id)
    exact ⟨_, splitState_eq_ok.2 ⟨new, d, drafted, rfl⟩, same⟩
  case visit =>
    intro side opened
    cases frames with
    | nil => exact absurd asks.shown.scopes opened
    | cons f rest =>
      obtain ⟨d, drafted, same⟩ := asks.shown.diagram_visit side
      exact ⟨_, visit_eq_ok.2 ⟨d, drafted, rfl⟩, fun state x => congrArg (·.walk state x) same⟩
  case assign =>
    intro bit value small
    obtain ⟨d, drafted, changed⟩ := asks.shown.walk_changeLeaves
      fun leaf => (leaf.1.put bit value, leaf.2)
    refine ⟨_, assign_output_eq_ok.2 ⟨small, d, drafted, rfl⟩,
      fun state x => ⟨?_, (changed state x).2⟩⟩
    intro visible
    have walked : Builder.walk { b with draft := d } state x = _ := (changed state x).1 visible
    rw [walked]
    exact ⟨fun i => Mask.get_put _ _ _ _, rfl⟩
  case setTarget =>
    intro target
    obtain ⟨d, drafted, changed⟩ := asks.shown.walk_changeLeaves fun leaf => (leaf.1, target)
    exact ⟨_, setTarget_eq_ok.2 ⟨d, drafted, rfl⟩, changed⟩

theorem visit_ne_openLeaf (shown : b.draft.Shows focus frames) (side : Bool) :
    b.visit side ≠ refuse (.internal .openLeaf) := by
  cases frames with
  | nil =>
    rw [visit, Draft.visit_of_scopes_nil shown.scopes]
    intro same
    cases same
  | cons f rest =>
    obtain ⟨d, drafted, -⟩ := shown.exists_visit side
    rw [visit_eq_ok.2 ⟨d, drafted, rfl⟩]
    intro same
    cases same

theorem join_ne_openLeaf (shown : b.draft.Shows focus frames) :
    b.join ≠ refuse (.internal .openLeaf) := by
  cases frames with
  | nil =>
    rw [join, Draft.join_of_scopes_nil shown.scopes]
    intro same
    cases same
  | cons f rest =>
    obtain ⟨d, drafted, -⟩ := shown.exists_join
    rw [join_eq_ok.2 ⟨d, drafted, rfl⟩]
    intro same
    cases same

/-- The links of a reachable builder make a tree in which the recorded sides lead to what is
visible. So no open branch is found to be a leaf, and where conditionals were opened only with
conditions that combine truth values, the operations have their stated effects. -/
theorem linked_and_effects_of_reachable {p : Expr → Prop} (reached : Reachable p b) :
    b.draft.Linked ∧
      (∀ side, b.visit side ≠ refuse (.internal .openLeaf)) ∧
      b.join ≠ refuse (.internal .openLeaf) ∧
      ((∀ e, p e → e.isCoerced = true) → b.Effects) := by
  obtain ⟨focus, frames, asks⟩ := (reached.mono fun e _ => trivial).exists_asks fun _ _ => trivial
  refine ⟨asks.shown.linked, fun side => ?_, ?_, fun coerced => ?_⟩
  · exact visit_ne_openLeaf asks.shown side
  · exact join_ne_openLeaf asks.shown
  · obtain ⟨focus, frames, asks⟩ := (reached.mono coerced).exists_asks
      fun e coerced => (Expr.simplify_standsFor coerced).coerced
    exact effects_of_asks asks

/-- Past the yes side of a conditional inside the arm of a state. -/
theorem linked_and_effects_in_nested_conditional :
    ∃ b, (fresh.splitState 3 none >>= (·.split (.input 0)) >>= (·.assign (.output 1) true) >>=
        (·.visit false)) = .ok b ∧
      b.draft.scopes.length = 2 ∧ b.draft.Linked ∧
      (∀ side, b.visit side ≠ refuse (.internal .openLeaf)) ∧
      b.join ≠ refuse (.internal .openLeaf) ∧ b.Effects := by
  obtain ⟨b, run, depth⟩ : ∃ b, (fresh.splitState 3 none >>= (·.split (.input 0)) >>=
      (·.assign (.output 1) true) >>= (·.visit false)) = .ok b ∧ b.draft.scopes.length = 2 :=
    ⟨_, rfl, rfl⟩
  obtain ⟨b₃, run₃, visited⟩ := bind_eq_ok.1 run
  obtain ⟨b₂, run₂, assigned⟩ := bind_eq_ok.1 run₃
  obtain ⟨b₁, opened, nested⟩ := bind_eq_ok.1 run₂
  have arm : Reachable (·.isCoerced) b₁ := Reachable.fresh.splitState opened
  have reached := ((arm.split rfl nested).assign assigned).visit visited
  obtain ⟨linked, visit, join, effects⟩ := linked_and_effects_of_reachable reached
  exact ⟨b, run, depth, linked, visit, join, effects fun _ coerced => coerced⟩

end Builder

end FsmFabric
