import FsmFabric.Proofs.Diagram.Links
import FsmFabric.Proofs.Diagram.Walk

/-!
# What a draft shows

A draft shows a subtree in focus below a list of open branches, each with the side that is not
visible. All of them lie in the arena under different numbers, the branches link down to the focus,
and the recorded sides lead from the root to it. Every operation on drafts succeeds on such a draft,
apart from closing or changing a branch when none is open, and leads to another one.
-/

namespace FsmFabric

/-- An open branch with the side that is not visible. -/
structure Frame where
  id : NodeId
  test : Test
  visitYes : Bool
  hidden : Subtree

namespace Frame

def scope (f : Frame) : Scope := ⟨f.id, f.visitYes⟩

def node (f : Frame) (child : NodeId) : Node :=
  if f.visitYes then .branch f.test child f.hidden.id else .branch f.test f.hidden.id child

def close (f : Frame) (visible : Subtree) : Subtree :=
  if f.visitYes then .branch f.id f.test visible f.hidden else .branch f.id f.test f.hidden visible

def flip (f : Frame) (visible : Subtree) : Frame := ⟨f.id, f.test, !f.visitYes, visible⟩

def ids (f : Frame) : List NodeId := f.id :: f.hidden.ids

@[simp] theorem id_close (f : Frame) (visible : Subtree) : (f.close visible).id = f.id := by
  unfold close
  split <;> rfl

theorem ids_close (f : Frame) (visible : Subtree) :
    (f.close visible).ids.Perm (visible.ids ++ f.ids) := by
  unfold close
  split
  · refine List.Perm.trans ?_ List.perm_middle.symm
    exact List.Perm.cons _ .rfl
  · refine List.Perm.trans ?_ List.perm_middle.symm
    exact List.Perm.cons _ List.perm_append_comm

theorem stored_close {f : Frame} {visible : Subtree} {nodes : Arena Node} :
    (f.close visible).Stored nodes ↔
      nodes.get f.id = .ok (f.node visible.id) ∧ visible.Stored nodes ∧ f.hidden.Stored nodes := by
  unfold close node
  split
  · exact Iff.rfl
  · exact and_congr_right fun _ => And.comm

theorem close_flip (f : Frame) (visible : Subtree) :
    (f.flip visible).close f.hidden = f.close visible := by
  unfold close flip
  cases f.visitYes <;> rfl

theorem node_flip (f : Frame) (visible : Subtree) :
    (f.flip visible).node f.hidden.id = f.node visible.id := by
  unfold node flip
  cases f.visitYes <;> rfl

end Frame

/-- The open branches closed around a subtree, the innermost first. -/
def plug (frames : List Frame) (t : Subtree) : Subtree := frames.foldl (fun t f => f.close t) t

/-- The number at the top of open branches around a node. -/
def topOf (child : NodeId) (frames : List Frame) : NodeId :=
  frames.foldl (fun _ f => f.id) child

def frameIds (frames : List Frame) : List NodeId := frames.flatMap Frame.ids

/-- Open branches lie in the arena, each linked to the next inner one, the innermost to `child`. -/
def Framed (nodes : Arena Node) : NodeId → List Frame → Prop
  | _, [] => True
  | child, f :: rest =>
    nodes.get f.id = .ok (f.node child) ∧ f.hidden.Stored nodes ∧ Framed nodes f.id rest

theorem Framed.congr {nodes nodes' : Arena Node} {child : NodeId} {frames : List Frame}
    (framed : Framed nodes child frames)
    (same : ∀ id ∈ frameIds frames, nodes'.get id = nodes.get id) :
    Framed nodes' child frames := by
  induction frames generalizing child with
  | nil => trivial
  | cons f rest ih =>
    obtain ⟨top, hidden, outer⟩ := framed
    refine ⟨(same f.id (by simp [frameIds, Frame.ids])).trans top,
      hidden.congr fun id member => same id (by simp [frameIds, Frame.ids, member]),
      ih outer fun id member => same id ?_⟩
    rw [frameIds, List.flatMap_cons]
    exact List.mem_append_right _ member

theorem Framed.index_lt {nodes : Arena Node} {child : NodeId} {frames : List Frame}
    (framed : Framed nodes child frames) : ∀ id ∈ frameIds frames, id.index < nodes.size := by
  induction frames generalizing child with
  | nil => intro id member; cases member
  | cons f rest ih =>
    obtain ⟨top, hidden, outer⟩ := framed
    intro id member
    rw [frameIds, List.flatMap_cons, Frame.ids, List.mem_append, List.mem_cons] at member
    rcases member with (rfl | member) | member
    · exact Arena.lt_size_of_get top
    · exact hidden.index_lt id member
    · exact ih outer id member

theorem Framed.get {nodes : Arena Node} {child : NodeId} {frames : List Frame}
    (framed : Framed nodes child frames) {f : Frame} (member : f ∈ frames) :
    ∃ yes no, nodes.get f.id = .ok (.branch f.test yes no) := by
  induction frames generalizing child with
  | nil => cases member
  | cons g rest ih =>
    obtain ⟨top, -, outer⟩ := framed
    rcases List.mem_cons.1 member with rfl | member
    · unfold Frame.node at top
      split at top <;> exact ⟨_, _, top⟩
    · exact ih outer member

theorem id_plug (frames : List Frame) (t : Subtree) : (plug frames t).id = topOf t.id frames := by
  induction frames generalizing t with
  | nil => rfl
  | cons f rest ih => exact (ih (f.close t)).trans (by rw [f.id_close t]; rfl)

theorem ids_plug (frames : List Frame) (t : Subtree) :
    (plug frames t).ids.Perm (t.ids ++ frameIds frames) := by
  induction frames generalizing t with
  | nil => simp [plug, frameIds]
  | cons f rest ih =>
    refine (ih (f.close t)).trans ?_
    have joined : t.ids ++ frameIds (f :: rest) = t.ids ++ f.ids ++ frameIds rest := by
      simp only [frameIds, List.flatMap_cons, List.append_assoc]
    exact joined ▸ (f.ids_close t).append_right _

theorem stored_plug {frames : List Frame} {t : Subtree} {nodes : Arena Node} :
    (plug frames t).Stored nodes ↔ t.Stored nodes ∧ Framed nodes t.id frames := by
  induction frames generalizing t with
  | nil => simp [plug, Framed]
  | cons f rest ih =>
    change (plug rest (f.close t)).Stored nodes ↔ _
    rw [ih, f.stored_close, f.id_close, Framed]
    exact ⟨fun ⟨⟨a, b, c⟩, d⟩ => ⟨b, a, c, d⟩, fun ⟨b, a, c, d⟩ => ⟨⟨a, b, c⟩, d⟩⟩

namespace Draft

/-- A draft shows a focus below open branches. -/
structure Shows (d : Draft) (focus : Subtree) (frames : List Frame) : Prop where
  stored : focus.Stored d.nodes
  framed : Framed d.nodes focus.id frames
  nodup : (focus.ids ++ frameIds frames).Nodup
  root : d.root = topOf focus.id frames
  current : d.current = focus.id
  scopes : d.scopes = frames.map Frame.scope

theorem fresh_shows : fresh.Shows (.leaf ⟨0⟩ Mask.empty none) [] where
  stored := rfl
  framed := trivial
  nodup := by simp [Subtree.ids, frameIds]
  root := rfl
  current := rfl
  scopes := rfl

namespace Shows

variable {d : Draft} {focus : Subtree} {frames : List Frame}

theorem expand_current (shown : d.Shows focus frames) : d.nodes.expand d.current = .ok focus := by
  rw [shown.current]
  exact shown.stored.expand (List.nodup_append.1 shown.nodup).1

theorem expand_root (shown : d.Shows focus frames) :
    d.nodes.expand d.root = .ok (plug frames focus) := by
  rw [shown.root, ← id_plug]
  exact (stored_plug.2 ⟨shown.stored, shown.framed⟩).expand
    ((ids_plug frames focus).nodup_iff.2 shown.nodup)

theorem diagram (shown : d.Shows focus frames) : d.diagram = (plug frames focus).diagram := by
  rw [Draft.diagram, shown.expand_root]

end Shows

/-- Pointing the innermost branch, or the root, at another node. -/
theorem exists_relink {d : Draft} {frames : List Frame} {child : NodeId}
    (framed : Framed d.nodes child frames) (nodup : (frameIds frames).Nodup)
    (root : d.root = topOf child frames) (scopes : d.scopes = frames.map Frame.scope)
    (new : NodeId) :
    ∃ d', d.relink new = .ok d' ∧ Framed d'.nodes new frames ∧ d'.root = topOf new frames ∧
      d'.current = d.current ∧ d'.scopes = d.scopes ∧ d'.nodes.size = d.nodes.size ∧
      ∀ id, id ∉ frameIds frames → d'.nodes.get id = d.nodes.get id := by
  cases frames with
  | nil =>
    refine ⟨{ d with root := new }, ?_, trivial, rfl, rfl, rfl, rfl, fun _ _ => rfl⟩
    simp [relink, scopes]
  | cons f rest =>
    obtain ⟨top, hidden, outer⟩ := framed
    rw [frameIds, List.flatMap_cons, Frame.ids, List.cons_append, List.nodup_cons, List.mem_append,
      not_or] at nodup
    obtain ⟨⟨notHidden, notOuter⟩, -⟩ := nodup
    obtain ⟨nodes', done⟩ := Arena.exists_set (Arena.lt_size_of_get top) (f.node new)
    obtain ⟨size, reads⟩ := Arena.set_eq_ok done
    have kept : ∀ id, id ≠ f.id → nodes'.get id = d.nodes.get id := fun id differs => by
      rw [reads, if_neg differs]
    refine ⟨{ d with nodes := nodes' }, ?_, ⟨?_, ?_, ?_⟩, ?_, rfl, rfl, size, ?_⟩
    · -- whichever side is visible, its link is the one that is replaced
      cases side : f.visitYes <;>
        simp only [Frame.node, side, Bool.false_eq_true, if_false, if_true] at top done <;>
        simp [relink, scopes, Frame.scope, top, side, done, bind, Except.bind, pure, Except.pure]
    · exact (reads f.id).trans (if_pos rfl)
    · exact hidden.congr fun id member => kept id fun same => notHidden (same ▸ member)
    · exact outer.congr fun id member => kept id fun same => notOuter (same ▸ member)
    · exact root
    · intro id outside
      refine kept id fun same => outside ?_
      simp [frameIds, Frame.ids, same]

namespace Shows

variable {d : Draft} {focus : Subtree} {frames : List Frame}

/-- Opening a branch keeps the focus and adds a branch with a new copy of it on the other side. -/
theorem exists_split (shown : d.Shows focus frames) (test : Test) :
    ∃ d' id copy, d.split test = .ok d' ∧ copy.diagram = focus.diagram.simplify ∧
      d'.Shows focus (⟨id, test, true, copy⟩ :: frames) := by
  obtain ⟨copy, idCopy, meaning, storedCopy, nodupCopy, newCopy, grown⟩ :=
    Arena.plant_spec focus.diagram.simplify d.nodes
  set planted := (Arena.plant focus.diagram.simplify d.nodes).2 with plantedDef
  set branch := planted.add (.branch test d.current copy.id) with branchDef
  have added : planted.Extends branch.2 := planted.extends_add _
  have whole : d.nodes.Extends branch.2 := grown.trans added
  have framed := shown.framed.congr fun id member =>
    whole.get_eq id (shown.framed.index_lt id member)
  obtain ⟨nodupFocus, nodupFrames, apart⟩ := List.nodup_append.1 shown.nodup
  obtain ⟨d', relinked, framed', root', current', scopes', -, kept⟩ :=
    exists_relink (d := { d with nodes := branch.2 }) framed nodupFrames shown.root shown.scopes
      branch.1
  -- what was there has a number below the size of the old arena; the copy and the branch do not
  have old : ∀ id ∈ frameIds frames, id.index < d.nodes.size := shown.framed.index_lt
  have oldFocus : ∀ id ∈ focus.ids, id.index < d.nodes.size := shown.stored.index_lt
  have newBranch : branch.1.index = planted.size := rfl
  have copyLt := storedCopy.index_lt
  have sizes := grown.size_le
  refine ⟨{ d' with scopes := ⟨branch.1, true⟩ :: d'.scopes }, branch.1, copy, ?_, meaning,
    ?_, ⟨?_, ?_, framed'⟩, ?_, root', current'.trans shown.current, ?_⟩
  · simp only [split, shown.expand_current, idCopy, ← plantedDef, ← branchDef, bind, Except.bind,
      pure, Except.pure, relinked]
  · exact (whole.stored shown.stored).congr fun id member =>
      kept id fun outer => apart id member id outer rfl
  · refine (kept branch.1 fun outer => ?_).trans (shown.current ▸ planted.get_add_self _)
    have := old _ outer
    omega
  · refine (added.stored storedCopy).congr fun id member => kept id fun outer => ?_
    have := old id outer
    have := newCopy id member
    omega
  · refine (List.perm_append_comm_assoc _ (branch.1 :: copy.ids) _).nodup_iff.2 ?_
    refine List.nodup_append.2 ⟨List.nodup_cons.2 ⟨fun member => ?_, nodupCopy⟩, shown.nodup, ?_⟩
    · have := copyLt _ member
      omega
    · rintro a new b before rfl
      have := (List.mem_append.1 before).elim (oldFocus a) (old a)
      rcases List.mem_cons.1 new with rfl | new
      · omega
      · have := newCopy a new
        omega
  · exact congrArg _ (scopes'.trans shown.scopes)

/-- The two sides of the innermost branch are the focus and the hidden side. -/
theorem sides {f : Frame} {rest : List Frame} (shown : d.Shows focus (f :: rest)) :
    d.sides f.id =
      .ok (if f.visitYes then (focus.id, f.hidden.id) else (f.hidden.id, focus.id)) := by
  have top := shown.framed.1
  cases side : f.visitYes <;>
    simp only [Frame.node, side, Bool.false_eq_true, if_false, if_true] at top <;>
    simp only [Draft.sides, top] <;> rfl

theorem expand_hidden {f : Frame} {rest : List Frame} (shown : d.Shows focus (f :: rest)) :
    d.nodes.expand f.hidden.id = .ok f.hidden := by
  have nodup := (List.nodup_append.1 shown.nodup).2.1
  rw [frameIds, List.flatMap_cons] at nodup
  exact shown.framed.2.1.expand (List.nodup_cons.1 (List.nodup_append.1 nodup).1).2

theorem exists_visit {f : Frame} {rest : List Frame} (shown : d.Shows focus (f :: rest))
    (side : Bool) :
    ∃ d', d.visit side = .ok d' ∧
      if side = f.visitYes then d'.Shows focus (f :: rest)
      else d'.Shows f.hidden (f.flip focus :: rest) := by
  have opened : d.visit side = .ok { d with
      current := if side = f.visitYes then focus.id else f.hidden.id
      scopes := ⟨f.id, side⟩ :: rest.map Frame.scope } := by
    have sides := shown.sides
    simp only [visit, shown.scopes, List.map_cons, Frame.scope, sides, bind, Except.bind]
    cases side <;> cases f.visitYes <;> rfl
  refine ⟨_, opened, ?_⟩
  obtain ⟨top, hidden, outer⟩ := shown.framed
  split
  · next same =>
    exact ⟨shown.stored, shown.framed, shown.nodup, shown.root, rfl, by simp [Frame.scope, same]⟩
  · next differs =>
    refine ⟨hidden, ⟨top.trans (congrArg _ (f.node_flip focus).symm), shown.stored, outer⟩, ?_,
      shown.root, rfl, ?_⟩
    · refine (List.Perm.nodup_iff ?_).1 shown.nodup
      simp only [frameIds, List.flatMap_cons, ← List.append_assoc]
      refine List.Perm.append_right _ ((f.ids_close focus).symm.trans ?_)
      exact f.close_flip focus ▸ (f.flip focus).ids_close f.hidden
    · have other : side = !f.visitYes := by
        revert differs
        cases side <;> cases f.visitYes <;> decide
      simp only [List.map_cons, Frame.scope, Frame.flip, other]

/-- The innermost branch itself becomes the focus. -/
theorem closed {f : Frame} {rest : List Frame} (shown : d.Shows focus (f :: rest)) :
    Shows { d with current := f.id, scopes := rest.map Frame.scope } (f.close focus) rest := by
  obtain ⟨top, hidden, outer⟩ := shown.framed
  have nodup := shown.nodup
  rw [frameIds, List.flatMap_cons, ← List.append_assoc] at nodup
  refine ⟨Frame.stored_close.2 ⟨top, shown.stored, hidden⟩, ?_, ?_, ?_, ?_, rfl⟩
  · rw [f.id_close]
    exact outer
  · exact ((f.ids_close focus).append_right _).nodup_iff.2 nodup
  · rw [f.id_close]
    exact shown.root
  · rw [f.id_close]

theorem exists_join {f : Frame} {rest : List Frame} (shown : d.Shows focus (f :: rest)) :
    ∃ d', d.join = .ok d' ∧
      if focus.diagram.sameLeaves f.hidden.diagram then d'.Shows focus rest
      else d'.Shows (f.close focus) rest := by
  have nodup := shown.nodup
  rw [frameIds, List.flatMap_cons, ← List.append_assoc] at nodup
  obtain ⟨nodupInner, nodupOuter, apart⟩ := List.nodup_append.1 nodup
  obtain ⟨nodupFocus, -, -⟩ := List.nodup_append.1 nodupInner
  obtain ⟨-, -, outer⟩ := shown.framed
  have expandFocus := shown.expand_current
  rw [shown.current] at expandFocus
  have expandHidden := shown.expand_hidden
  have joined : d.join =
      if focus.diagram.sameLeaves f.hidden.diagram then
        liftM (relink { d with current := focus.id, scopes := rest.map Frame.scope } focus.id)
      else .ok { d with current := f.id, scopes := rest.map Frame.scope } := by
    have sides := shown.sides
    simp only [join, shown.scopes, List.map_cons, Frame.scope, sides, bind, Except.bind]
    cases f.visitYes
    · simp only [Bool.false_eq_true, if_false, expandFocus, expandHidden, liftM_ok,
        Diagram.sameLeaves_comm f.hidden.diagram]
      rfl
    · simp only [if_true, expandFocus, expandHidden]
      rfl
  rw [joined]
  split
  · obtain ⟨d', relinked, framed', root', current', scopes', -, kept⟩ :=
      exists_relink (d := { d with current := focus.id, scopes := rest.map Frame.scope })
        outer nodupOuter shown.root rfl focus.id
    refine ⟨d', by rw [relinked]; rfl, ?_, framed', ?_, root', current', scopes'⟩
    · exact shown.stored.congr fun id inner => kept id fun outer =>
        apart id (List.mem_append_left _ inner) id outer rfl
    · refine List.nodup_append.2 ⟨nodupFocus, nodupOuter, fun a inner b outer => ?_⟩
      exact apart a (List.mem_append_left _ inner) b outer
  · exact ⟨_, rfl, shown.closed⟩

/-- Changing the visible leaves changes the leaves of the focus. -/
theorem exists_changeLeaves (shown : d.Shows focus frames)
    (change : Mask × Option Nat → Mask × Option Nat) :
    ∃ d', d.changeLeaves change = .ok d' ∧ d'.Shows (focus.mapLeaves change) frames := by
  obtain ⟨nodupFocus, -, apart⟩ := List.nodup_append.1 shown.nodup
  obtain ⟨nodes', done, stored', -, kept⟩ :=
    Arena.changeAll_leaves change shown.stored nodupFocus []
  rw [List.append_nil] at done
  refine ⟨{ d with nodes := nodes' }, ?_, stored', ?_, ?_, ?_, ?_, shown.scopes⟩
  · simp only [changeLeaves, shown.expand_current, done, bind, Except.bind]
    rfl
  · rw [focus.id_mapLeaves]
    exact shown.framed.congr fun id outer => kept id fun inner => apart id inner id outer rfl
  · rw [focus.ids_mapLeaves]
    exact shown.nodup
  · rw [focus.id_mapLeaves]
    exact shown.root
  · rw [focus.id_mapLeaves]
    exact shown.current

end Shows

end Draft

end FsmFabric
