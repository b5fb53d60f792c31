import TreeDiagram.Tree.Basic
/-!
Walks over a stored tree that keep the work still to do in a list and never call themselves for a
child, so that the height of the tree does not matter.

Every walk visits a node once. A tree has no more nodes to visit than it has nodes at all, and this
bounds the steps of each walk.
-/

namespace TreeDiagram.Tree

variable {K : Type}

/-- Visits the pending nodes and, before those already pending, their children. -/
def visitDown (t : Tree K) : Nat → List Nat → List Nat
  | 0, _ => []
  | _ + 1, [] => []
  | steps + 1, i :: pending => i :: t.visitDown steps (t.children i ++ pending)

/-- The nodes in root, left, right order. -/
def preOrder (t : Tree K) : List Nat :=
  t.visitDown t.size t.root.toList

/-- Visits the pending nodes and their children, the right one first, and puts each visited node
before those visited earlier. -/
def visitUp (t : Tree K) : Nat → List Nat → List Nat → List Nat
  | 0, _, visited => visited
  | _ + 1, [], visited => visited
  | steps + 1, i :: pending, visited =>
    t.visitUp steps ((t.children i).reverse ++ pending) (i :: visited)

/-- The nodes in left, right, root order: root, right, left order read backwards. -/
def postOrder (t : Tree K) : List Nat :=
  t.visitUp t.size t.root.toList []

/-- The children of a row of nodes, from left to right. -/
def nextLevel (t : Tree K) (level : List Nat) : List Nat :=
  level.flatMap t.children

/-- A row of nodes and the rows below it, down to the last one that is not empty. -/
def levelsBelow (t : Tree K) : Nat → List Nat → List (List Nat)
  | 0, _ => []
  | _ + 1, [] => []
  | steps + 1, level => level :: t.levelsBelow steps (t.nextLevel level)

/-- The levels of the subtree below a node, the node's own first. -/
def levelsOf (t : Tree K) (i : Nat) : List (List Nat) :=
  t.levelsBelow t.size [i]

/-- The levels of the tree, the root's first. -/
def levels (t : Tree K) : List (List Nat) :=
  (t.root.map t.levelsOf).getD []

/-- Visits the waiting nodes in turn, children behind all those waiting, and keeps the number of the
deepest level seen. -/
def deepest (t : Tree K) : Nat → List (Nat × Nat) → Nat → Nat
  | 0, _, found => found
  | _ + 1, [], found => found
  | steps + 1, (i, level) :: waiting, found =>
    t.deepest steps (waiting ++ (t.children i).map fun c => (c, level + 1)) (max found level)

/-- The number of levels below a node, its own included. -/
def depth (t : Tree K) (i : Nat) : Nat :=
  t.deepest t.size [(i, 1)] 0

end TreeDiagram.Tree
