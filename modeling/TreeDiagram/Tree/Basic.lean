import TreeDiagram.Scalar
import TreeDiagram.Tree.Shape
/-!
Stored trees: nodes in a row, in the order in which they were made, which refer to each other by
their places in it.

A node that hangs from no other is in the row all the same; the tree is what can be reached from
its root by going to left and right children. The coordinates of a node are filled in by a layout.
-/

namespace TreeDiagram

/-- A node with the places of its children and of its parent. -/
structure Node (K : Type) where
  label : String
  left : Option Nat
  right : Option Nat
  parent : Option Nat
  x : K
  y : K
  /-- How far the whole subtree of the node was moved to the right. -/
  shift : K
  deriving DecidableEq, Repr

/-- Nodes in a row and the place of the root. -/
structure Tree (K : Type) where
  nodes : Array (Node K) := #[]
  root : Option Nat := none
  deriving DecidableEq, Repr

/-- The side on which a child hangs. -/
inductive Side where
  | left
  | right
  deriving DecidableEq, Repr

/-- A node that hangs nowhere, with its coordinates not filled in. -/
def Node.new {K : Type} [Scalar K] (label : String) : Node K :=
  { label, left := none, right := none, parent := none, x := 0.0, y := 0.0, shift := 0.0 }

namespace Tree

variable {K : Type}

/-- The number of nodes, those out of reach included. -/
def size (t : Tree K) : Nat := t.nodes.size

/-- The node at a place. -/
def node? (t : Tree K) (i : Nat) : Option (Node K) := t.nodes[i]?

/-- The label of the node at a place. -/
def labelAt (t : Tree K) (i : Nat) : String :=
  ((t.node? i).map Node.label).getD ""

/-- The tree with the node at a place changed. -/
def modify (t : Tree K) (i : Nat) (f : Node K → Node K) : Tree K :=
  { t with nodes := t.nodes.modify i f }

/-- The tree with one more node, which hangs nowhere. Its place is the former size. -/
def add [Scalar K] (t : Tree K) (label : String) : Tree K :=
  { t with nodes := t.nodes.push (Node.new label) }

/-- The tree with the node at a place for its root. -/
def setRoot (t : Tree K) (i : Nat) : Tree K :=
  { t.modify i (fun n => { n with parent := none }) with root := some i }

/-- The tree with one node hung from another. -/
def attach (t : Tree K) (parent : Nat) (side : Side) (child : Nat) : Tree K :=
  let hang (n : Node K) : Node K :=
    match side with
    | .left => { n with left := some child }
    | .right => { n with right := some child }
  (t.modify parent hang).modify child fun n => { n with parent := some parent }

/-- A tree of one node. -/
def single [Scalar K] (label : String) : Tree K :=
  (({} : Tree K).add label).setRoot 0

/-- The places of a node's children, the left one first. -/
def children (t : Tree K) (i : Nat) : List Nat :=
  match t.node? i with
  | none => []
  | some n => n.left.toList ++ n.right.toList

/-- The shape below a link, down to at most `depth` levels. -/
def shapeBelow (t : Tree K) : Nat → Option Nat → Shape Nat
  | 0, _ => .empty
  | _ + 1, none => .empty
  | depth + 1, some i =>
    match t.node? i with
    | none => .empty
    | some n => .node i (t.shapeBelow depth n.left) (t.shapeBelow depth n.right)

/-- The shape that is reached from the root, with the places of the nodes for items. -/
def shape (t : Tree K) : Shape Nat :=
  t.shapeBelow t.size t.root

end Tree

end TreeDiagram
