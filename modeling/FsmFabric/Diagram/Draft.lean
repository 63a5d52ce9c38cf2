import FsmFabric.Arena
import FsmFabric.Diagram.Basic
import FsmFabric.Error

/-!
# Drafts

While a diagram is being built, its nodes lie in an arena, and a branch refers to its sides by
number. A `Draft` knows the root, the node that is visible, and the open branches on the way to it,
each with the side that is being visited. Nodes are added and replaced but never removed: what a
closed branch leaves behind stays in the arena, out of reach of the root.
-/

namespace FsmFabric

/-- A node of a draft. -/
inductive Node where
  | leaf (output : Mask) (target : Option Nat)
  /-- `yes` is followed where the test holds. -/
  | branch (test : Test) (yes no : NodeId)
deriving Repr

def Node.mapLeaf (change : Mask × Option Nat → Mask × Option Nat) : Node → Node
  | leaf output target => leaf (change (output, target)).1 (change (output, target)).2
  | branch test yes no => branch test yes no

/-- What lies below a node, with the numbers of the nodes. -/
inductive Subtree where
  | leaf (id : NodeId) (output : Mask) (target : Option Nat)
  | branch (id : NodeId) (test : Test) (yes no : Subtree)
deriving Repr

namespace Subtree

def id : Subtree → NodeId
  | leaf id .. | branch id .. => id

def ids : Subtree → List NodeId
  | leaf id .. => [id]
  | branch id _ yes no => id :: (yes.ids ++ no.ids)

/-- The numbers of the leaves, the yes side of each branch first. -/
def leaves : Subtree → List NodeId
  | leaf id .. => [id]
  | branch _ _ yes no => yes.leaves ++ no.leaves

def diagram : Subtree → Diagram
  | leaf _ output target => .leaf output target
  | branch _ test yes no => .branch test yes.diagram no.diagram

end Subtree

namespace Arena

/-- What lies below a node, if no way down passes more than `depth` nodes. -/
def expandWithin (nodes : Arena Node) : Nat → NodeId → Except Fault Subtree
  | 0, id => .error (.indexOutsideTable id.index 0)
  | depth + 1, id => do
    match ← nodes.get id with
    | .leaf output target => return .leaf id output target
    | .branch test yes no =>
      return .branch id test (← nodes.expandWithin depth yes) (← nodes.expandWithin depth no)

/-- What lies below a node. No way down passes more nodes than there are. -/
def expand (nodes : Arena Node) (id : NodeId) : Except Fault Subtree :=
  nodes.expandWithin nodes.size id

/-- Adds the nodes of a diagram, the sides of a branch before the branch. -/
def plant : Diagram → Arena Node → NodeId × Arena Node
  | .leaf output target, nodes => nodes.add (.leaf output target)
  | .branch test yes no, nodes =>
    let (yes, nodes) := plant yes nodes
    let (no, nodes) := plant no nodes
    nodes.add (.branch test yes no)

def changeAll (nodes : Arena Node) (change : Node → Node) : List NodeId → Except Fault (Arena Node)
  | [] => .ok nodes
  | id :: rest => do
    let nodes ← nodes.set id (change (← nodes.get id))
    nodes.changeAll change rest

end Arena

/-- An open branch, and whether its yes side is visible. -/
structure Scope where
  branch : NodeId
  visitYes : Bool
deriving DecidableEq, Repr

/-- A diagram under construction. -/
structure Draft where
  nodes : Arena Node
  root : NodeId
  /-- What is visible. -/
  current : NodeId
  /-- The open branches, innermost first. -/
  scopes : List Scope := []

namespace Draft

/-- A single leaf without outputs that stays in every state. -/
def fresh : Draft where
  nodes := ⟨#[.leaf Mask.empty none]⟩
  root := ⟨0⟩
  current := ⟨0⟩

def diagram (d : Draft) : Diagram :=
  match d.nodes.expand d.root with
  | .ok whole => whole.diagram
  | .error _ => .idle

/-- Points the link that leads to what is visible at another node. -/
def relink (d : Draft) (id : NodeId) : Except Fault Draft :=
  match d.scopes with
  | [] => .ok { d with root := id }
  | s :: _ => do
    match ← d.nodes.get s.branch with
    | .leaf .. => return d
    | .branch test yes no =>
      let linked := if s.visitYes then .branch test id no else .branch test yes id
      return { d with nodes := ← d.nodes.set s.branch linked }

/-- Opens a branch above what is visible, with its yes side visible. The other side is a copy. -/
def split (d : Draft) (test : Test) : Except Fault Draft := do
  let below ← d.nodes.expand d.current
  let (copy, nodes) := Arena.plant below.diagram.simplify d.nodes
  let (branch, nodes) := nodes.add (.branch test d.current copy)
  let d ← relink { d with nodes } branch
  return { d with scopes := ⟨branch, true⟩ :: d.scopes }

def sides (d : Draft) (id : NodeId) : Result (NodeId × NodeId) := do
  match ← d.nodes.get id with
  | .leaf .. => refuse (.internal .openLeaf)
  | .branch _ yes no => return (yes, no)

/-- Makes one side of the innermost branch visible. -/
def visit (d : Draft) (visitYes : Bool) : Result Draft :=
  match d.scopes with
  | [] => refuse (.internal .strayElse)
  | s :: rest => do
    let (yes, no) ← d.sides s.branch
    return { d with
      current := if visitYes then yes else no
      scopes := ⟨s.branch, visitYes⟩ :: rest }

/-- Closes the innermost branch. If both sides have the same leaves, the visible one replaces it. -/
def join (d : Draft) : Result Draft :=
  match d.scopes with
  | [] => refuse (.internal .strayJoin)
  | s :: rest => do
    let (yes, no) ← d.sides s.branch
    if (← d.nodes.expand yes).diagram.sameLeaves (← d.nodes.expand no).diagram then
      let current := if s.visitYes then yes else no
      relink { d with current, scopes := rest } current
    else return { d with current := s.branch, scopes := rest }

def changeLeaves (d : Draft) (change : Mask × Option Nat → Mask × Option Nat) :
    Except Fault Draft := do
  let below ← d.nodes.expand d.current
  return { d with nodes := ← d.nodes.changeAll (Node.mapLeaf change) below.leaves }

/-- The conditions of open conditionals, each negated where its no side is visible. -/
def openConditions (d : Draft) : List Scope → Except Fault (List Expr)
  | [] => .ok []
  | s :: rest => do
    match ← d.nodes.get s.branch with
    | .branch (.condition e) _ _ =>
      return (if s.visitYes then e.simplify.truth else Expr.negate e.simplify) ::
        (← d.openConditions rest)
    | _ => d.openConditions rest

/-- The condition under which what is visible is reached, apart from the state. -/
def pathGuard (d : Draft) : Except Fault Expr := do
  match ← d.openConditions d.scopes with
  | [] => return .literal true
  | e :: rest => return rest.foldl Expr.both e

end Draft

end FsmFabric
