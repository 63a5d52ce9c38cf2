import FsmFabric.Diagram.Draft
import Mathlib.Data.List.Nodup
import Mathlib.Data.List.Sort
import Mathlib.Data.List.Perm.Subperm

/-!
# Subtrees stored in an arena

A subtree is stored in an arena when every one of its nodes lies there under its number and links to
the numbers of its sides. Below a stored subtree whose numbers are all different, `expand` finds the
subtree itself, and a change to nodes outside of it does not touch it.
-/

namespace FsmFabric

namespace Subtree

def height : Subtree → Nat
  | leaf .. => 1
  | branch _ _ yes no => max yes.height no.height + 1

def Stored (nodes : Arena Node) : Subtree → Prop
  | leaf id output target => nodes.get id = .ok (.leaf output target)
  | branch id test yes no =>
    nodes.get id = .ok (.branch test yes.id no.id) ∧ yes.Stored nodes ∧ no.Stored nodes

def mapLeaves (change : Mask × Option Nat → Mask × Option Nat) : Subtree → Subtree
  | leaf id output target => leaf id (change (output, target)).1 (change (output, target)).2
  | branch id test yes no => branch id test (yes.mapLeaves change) (no.mapLeaves change)

theorem id_mem_ids (t : Subtree) : t.id ∈ t.ids := by
  cases t <;> simp [id, ids]

theorem height_le_length_ids (t : Subtree) : t.height ≤ t.ids.length := by
  induction t with
  | leaf => rfl
  | branch id test yes no ihy ihn =>
    simp only [height, ids, List.length_cons, List.length_append]
    omega

@[simp] theorem id_mapLeaves (change : Mask × Option Nat → Mask × Option Nat) (t : Subtree) :
    (t.mapLeaves change).id = t.id := by
  cases t <;> rfl

@[simp] theorem ids_mapLeaves (change : Mask × Option Nat → Mask × Option Nat) (t : Subtree) :
    (t.mapLeaves change).ids = t.ids := by
  induction t with
  | leaf => rfl
  | branch _ test yes no ihy ihn => simp [mapLeaves, ids, ihy, ihn]

namespace Stored

variable {nodes nodes' : Arena Node} {t : Subtree}

/-- A stored subtree stays stored when its own nodes are kept. -/
theorem congr (stored : t.Stored nodes) (same : ∀ id ∈ t.ids, nodes'.get id = nodes.get id) :
    t.Stored nodes' := by
  induction t with
  | leaf id => exact (same id (by simp [ids])).trans stored
  | branch id test yes no ihy ihn =>
    obtain ⟨top, left, right⟩ := stored
    exact ⟨(same id (by simp [ids])).trans top,
      ihy left fun i hi => same i (by simp [ids, hi]),
      ihn right fun i hi => same i (by simp [ids, hi])⟩

theorem index_lt (stored : t.Stored nodes) : ∀ id ∈ t.ids, id.index < nodes.size := by
  induction t with
  | leaf id =>
    intro i hi
    rw [List.mem_singleton.1 hi]
    exact Arena.lt_size_of_get stored
  | branch id test yes no ihy ihn =>
    intro i hi
    obtain ⟨top, left, right⟩ := stored
    simp only [ids, List.mem_cons, List.mem_append] at hi
    rcases hi with rfl | hi | hi
    · exact Arena.lt_size_of_get top
    · exact ihy left i hi
    · exact ihn right i hi

theorem expandWithin (stored : t.Stored nodes) {depth : Nat} (deep : t.height ≤ depth) :
    nodes.expandWithin depth t.id = .ok t := by
  induction t generalizing depth with
  | leaf id output target =>
    obtain ⟨depth, rfl⟩ : ∃ n, depth = n + 1 := ⟨depth - 1, by simp only [height] at deep; omega⟩
    have found : nodes.get id = .ok (.leaf output target) := stored
    change nodes.expandWithin (depth + 1) id = _
    simp [Arena.expandWithin, found, bind, Except.bind, pure, Except.pure]
  | branch id test yes no ihy ihn =>
    obtain ⟨top, left, right⟩ := stored
    simp only [height] at deep
    obtain ⟨depth, rfl⟩ : ∃ n, depth = n + 1 := ⟨depth - 1, by omega⟩
    have foundY : nodes.expandWithin depth yes.id = .ok yes := ihy left (by omega)
    have foundN : nodes.expandWithin depth no.id = .ok no := ihn right (by omega)
    change nodes.expandWithin (depth + 1) id = _
    simp [Arena.expandWithin, top, foundY, foundN, bind, Except.bind, pure, Except.pure]

end Stored

/-- Different numbers below a bound are at most as many as the bound. -/
private theorem length_le_of_nodup {ids : List NodeId} {bound : Nat} (nodup : ids.Nodup)
    (below : ∀ id ∈ ids, id.index < bound) : ids.length ≤ bound := by
  have injective : Function.Injective NodeId.index := by
    rintro ⟨a⟩ ⟨b⟩ same
    exact congrArg NodeId.mk same
  have different := nodup.map injective
  have inside : ids.map NodeId.index ⊆ List.range bound := by
    intro i hi
    obtain ⟨id, member, rfl⟩ := List.mem_map.1 hi
    exact List.mem_range.2 (below id member)
  simpa using (different.subperm inside).length_le

theorem Stored.height_le_size {nodes : Arena Node} {t : Subtree} (stored : t.Stored nodes)
    (nodup : t.ids.Nodup) : t.height ≤ nodes.size :=
  t.height_le_length_ids.trans (length_le_of_nodup nodup stored.index_lt)

/-- Below a stored subtree lies the subtree itself. -/
theorem Stored.expand {nodes : Arena Node} {t : Subtree} (stored : t.Stored nodes)
    (nodup : t.ids.Nodup) : nodes.expand t.id = .ok t :=
  stored.expandWithin (stored.height_le_size nodup)

end Subtree

namespace Arena

open Subtree

/-- An arena that keeps all nodes of another one and may have more. -/
structure Extends (nodes nodes' : Arena Node) : Prop where
  size_le : nodes.size ≤ nodes'.size
  get_eq : ∀ id, id.index < nodes.size → nodes'.get id = nodes.get id

theorem Extends.trans {a b c : Arena Node} (first : a.Extends b) (second : b.Extends c) :
    a.Extends c where
  size_le := first.size_le.trans second.size_le
  get_eq id inside :=
    (second.get_eq id (inside.trans_le first.size_le)).trans (first.get_eq id inside)

theorem Extends.stored {nodes nodes' : Arena Node} (grown : nodes.Extends nodes') {t : Subtree}
    (stored : t.Stored nodes) : t.Stored nodes' :=
  stored.congr fun id member => grown.get_eq id (stored.index_lt id member)

theorem extends_add (nodes : Arena Node) (node : Node) : nodes.Extends (nodes.add node).2 where
  size_le := by rw [size_add]; omega
  get_eq _ inside := get_add_of_lt inside node

/-- Planting a diagram adds a subtree of new nodes that holds it. -/
theorem plant_spec (d : Diagram) (nodes : Arena Node) :
    ∃ t : Subtree, (plant d nodes).1 = t.id ∧ t.diagram = d ∧ t.Stored (plant d nodes).2 ∧
      t.ids.Nodup ∧ (∀ id ∈ t.ids, nodes.size ≤ id.index) ∧ nodes.Extends (plant d nodes).2 := by
  induction d generalizing nodes with
  | leaf output target =>
    refine ⟨.leaf (nodes.add (.leaf output target)).1 output target, rfl, rfl,
      nodes.get_add_self _, by simp [ids], ?_, nodes.extends_add _⟩
    intro id member
    rw [List.mem_singleton.1 member]
    exact le_rfl
  | branch test yes no ihy ihn =>
    obtain ⟨y, idY, rfl, storedY, nodupY, newY, growY⟩ := ihy nodes
    obtain ⟨n, idN, rfl, storedN, nodupN, newN, growN⟩ := ihn (plant y.diagram nodes).2
    simp only [plant, idY, idN]
    set middle := (plant y.diagram nodes).2
    set nodes' := (plant n.diagram middle).2
    have grow := nodes'.extends_add (.branch test y.id n.id)
    have keptY := (growN.trans grow).stored storedY
    have keptN := grow.stored storedN
    refine ⟨.branch (nodes'.add (.branch test y.id n.id)).1 test y n, rfl, rfl,
      ⟨nodes'.get_add_self _, keptY, keptN⟩, ?_, ?_, growY.trans (growN.trans grow)⟩
    · -- the branch is newer than both sides, and the no side is newer than the yes side
      have top : (nodes'.add (.branch test y.id n.id)).1.index = nodes'.size := rfl
      refine List.nodup_cons.2 ⟨fun member => ?_, List.nodup_append.2 ⟨nodupY, nodupN, ?_⟩⟩
      · rcases List.mem_append.1 member with old | old
        · have := storedY.index_lt _ old
          have := growN.size_le
          omega
        · have := storedN.index_lt _ old
          omega
      · intro a old b new same
        have := storedY.index_lt a old
        have := newN b new
        subst same
        omega
    · intro id member
      simp only [ids, List.mem_cons, List.mem_append] at member
      have := growY.size_le
      have := growN.size_le
      rcases member with rfl | member | member
      · exact (growY.trans growN).size_le
      · exact newY id member
      · have := newN id member
        omega

/-- Changing the leaves of a stored subtree changes nothing else. -/
theorem changeAll_leaves (change : Mask × Option Nat → Mask × Option Nat) {t : Subtree}
    {nodes : Arena Node} (stored : t.Stored nodes) (nodup : t.ids.Nodup) :
    ∀ rest, ∃ nodes', nodes.changeAll (Node.mapLeaf change) (t.leaves ++ rest) =
        nodes'.changeAll (Node.mapLeaf change) rest ∧
      (t.mapLeaves change).Stored nodes' ∧ nodes'.size = nodes.size ∧
      ∀ id, id ∉ t.ids → nodes'.get id = nodes.get id := by
  induction t generalizing nodes with
  | leaf id output target =>
    intro rest
    have found : nodes.get id = .ok (.leaf output target) := stored
    obtain ⟨nodes', done⟩ := exists_set (lt_size_of_get found)
      (Node.mapLeaf change (.leaf output target))
    obtain ⟨size, reads⟩ := set_eq_ok done
    refine ⟨nodes', ?_, ?_, size, fun other outside => ?_⟩
    · simp [leaves, changeAll, found, done, bind, Except.bind]
    · exact (reads id).trans (if_pos rfl)
    · rw [reads, if_neg (by simpa [ids] using outside)]
  | branch id test yes no ihy ihn =>
    intro rest
    obtain ⟨top, left, right⟩ := stored
    simp only [ids, List.nodup_cons, List.mem_append, not_or] at nodup
    obtain ⟨apart, nodup⟩ := nodup
    obtain ⟨nodupY, nodupN, disjoint⟩ := List.nodup_append.1 nodup
    obtain ⟨middle, first, storedY, sizeY, keptY⟩ := ihy left nodupY (no.leaves ++ rest)
    have right' : no.Stored middle :=
      right.congr fun i hi => keptY i fun hy => disjoint i hy i hi rfl
    obtain ⟨nodes', second, storedN, sizeN, keptN⟩ := ihn right' nodupN rest
    refine ⟨nodes', ?_, ⟨?_, ?_, storedN⟩, sizeN.trans sizeY, fun other outside => ?_⟩
    · rw [leaves, List.append_assoc, first, second]
    · rw [keptN id apart.2, keptY id apart.1, top, id_mapLeaves, id_mapLeaves]
    · refine storedY.congr fun i hi => keptN i fun hn => ?_
      rw [ids_mapLeaves] at hi
      exact disjoint i hi i hn rfl
    · simp only [ids, List.mem_cons, List.mem_append, not_or] at outside
      rw [keptN other outside.2.2, keptY other outside.2.1]

end Arena

end FsmFabric
