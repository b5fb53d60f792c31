import TreeDiagram.Layout.Arrangement
import TreeDiagram.Layout.Factors
import TreeDiagram.Tree.Basic
/-!
The layout of a tree: every node with its coordinates, and the page that they fit on.

The nodes are listed in root, left, right order, so that a parent comes before its children. The
shifts of the arrangement are added up from the root downwards. The horizontal extent of the tree
is measured with zero in it.
-/

namespace TreeDiagram

/-- A node with its coordinates, which are relative to the tree and not yet to the page. -/
structure PlacedNode (K : Type) where
  /-- The node's place in the stored tree. -/
  node : Nat
  label : String
  depth : Nat
  x : K
  y : K
  /-- How far the whole subtree of the node was moved to the right. -/
  shift : K
  /-- The parent's place in the list of placed nodes. -/
  parent : Option Nat
  deriving DecidableEq, Repr

/-- The coordinates of a tree's nodes and the measures of its page. -/
structure Layout (K : Type) where
  horizontalSpacing : K
  verticalSpacing : K
  marginX : K
  marginY : K
  pageWidth : K
  pageHeight : K
  /-- How far all nodes are moved to the right, so that none is left of the margin. -/
  offsetX : K
  /-- The radius of the circles, where a node has none of its own. -/
  radius : K
  nodes : Array (PlacedNode K)
  deriving DecidableEq, Repr

/-- Why a tree has no layout. -/
inductive LayoutError (K : Type) where
  | emptyTree
  | invalidRadius (radius : K)
  deriving DecidableEq, Repr

namespace Layout

variable {K : Type} [Scalar K]

/-- Adds the nodes of an arrangement to those already placed, below a parent that is among them.
`shift` is the sum of the shifts above the arrangement, `v` the distance between two levels. -/
def place (labelAt : Nat → String) (v : K) :
    Arrangement K → K → Nat → Option Nat → Array (PlacedNode K) → Array (PlacedNode K)
  | .empty, _, _, _, placed => placed
  | .node s l r, shift, depth, parent, placed =>
    let here := placed.size
    let total := s.shift + shift
    let placed := placed.push
      { node := s.node, label := labelAt s.node, depth, x := s.x + total, y := v * (depth : K),
        shift := total, parent }
    let placed := place labelAt v l total (depth + 1) (some here) placed
    place labelAt v r total (depth + 1) (some here) placed

/-- The nodes of a stored tree with their coordinates. -/
def placeAll (t : Tree K) (h v : K) : Array (PlacedNode K) :=
  place t.labelAt v (Arrangement.ofShape h t.shape) 0.0 0 none #[]

/-- The least x of the placed nodes, or zero if that is less. -/
def minX (placed : Array (PlacedNode K)) : K :=
  placed.foldl (fun m n => Scalar.smaller m n.x) 0.0

/-- The greatest x of the placed nodes, or zero if that is greater. -/
def maxX (placed : Array (PlacedNode K)) : K :=
  placed.foldl (fun m n => Scalar.larger m n.x) 0.0

/-- The greatest y of the placed nodes, or zero if that is greater. -/
def maxY (placed : Array (PlacedNode K)) : K :=
  placed.foldl (fun m n => Scalar.larger m n.y) 0.0

/-- The layout of a stored tree whose nodes have a given radius. -/
def compute (t : Tree K) (radius : K) (style : Style) (factors : LayoutFactors K) :
    Except (LayoutError K) (Layout K) :=
  if t.root.isNone then .error .emptyTree
  else if 0.0 < radius ∧ Scalar.isFinite radius then
    let (h, v) := factors.spacing radius style
    let (marginX, marginY) := factors.margins radius style
    let nodes := placeAll t h v
    let leftmost := minX nodes
    .ok
      { horizontalSpacing := h
        verticalSpacing := v
        marginX
        marginY
        pageWidth := 2.0 * marginX + (maxX nodes - leftmost)
        pageHeight := 2.0 * marginY + maxY nodes
        offsetX := if leftmost < 0.0 then -leftmost else 0.0
        radius := radius + (style.radiusIncrement : K)
        nodes }
  else .error (.invalidRadius radius)

/-- The parent of a placed node. -/
def parentOf? (layout : Layout K) (n : PlacedNode K) : Option (PlacedNode K) :=
  n.parent.bind fun i => layout.nodes[i]?

/-- The first placed node with a label. -/
def find? (layout : Layout K) (label : String) : Option (PlacedNode K) :=
  layout.nodes.find? fun n => n.label == label

/-- The horizontal place of a node on the page. -/
def absoluteX (layout : Layout K) (x : K) : K :=
  x + layout.offsetX + layout.marginX

/-- The vertical place of a node on the page. -/
def absoluteY (layout : Layout K) (y : K) : K :=
  y + layout.marginY

end Layout

namespace Tree

variable {K : Type} [Scalar K]

/-- Fills in the coordinates of a placed node, with its parent's place in the stored tree. -/
def settleNode (placed : Array (PlacedNode K)) (t : Tree K) (n : PlacedNode K) : Tree K :=
  let parent := (n.parent.bind fun i => placed[i]?).map PlacedNode.node
  t.modify n.node fun stored =>
    { stored with parent, x := n.x, y := n.y, shift := n.shift }

/-- Fills in the coordinates of all placed nodes. -/
def settle (t : Tree K) (placed : Array (PlacedNode K)) : Tree K :=
  placed.foldl (settleNode placed) t

/-- Lays a tree out and fills its coordinates in. -/
def layOut (t : Tree K) (radius : K) (style : Style) (factors : LayoutFactors K) :
    Except (LayoutError K) (Layout K × Tree K) :=
  (Layout.compute t radius style factors).map fun layout => (layout, t.settle layout.nodes)

end Tree

end TreeDiagram
