import TreeDiagram.Layout.Basic
import TreeDiagram.Tree.Traversal
/-!
A layout in three passes that write into the stored tree.

The first pass goes down level by level. It sets the heights, clears what an earlier layout left
behind and lets every node name its parent. The second pass goes up from the leaves. It puts every
parent over its children, after it has shifted the right one until their subtrees keep their
distance; how far a node stands to the right is then found by climbing to the top of its subtree.
The third pass goes down once more and adds up the shifts.
-/

namespace TreeDiagram

namespace Node

variable {K : Type} [Scalar K]

/-- The node at a height, with nothing left of its place in an earlier layout. -/
def atHeight (y : K) (n : Node K) : Node K := { n with x := 0.0, y, shift := 0.0 }

/-- The node with a given parent. -/
def childOf (parent : Option Nat) (n : Node K) : Node K := { n with parent }

/-- The node at a horizontal place. -/
def placedAt (x : K) (n : Node K) : Node K := { n with x }

/-- The node with its subtree shifted further to the right. -/
def shifted (distance : K) (n : Node K) : Node K := { n with shift := n.shift + distance }

/-- The node at its final place, with the shift of its subtree added up. -/
def settledAt (x shift : K) (n : Node K) : Node K := { n with x, shift }

end Node

namespace Tree

variable {K : Type} [Scalar K]

/-- The horizontal place of a node. -/
def xAt (t : Tree K) (i : Nat) : K := ((t.node? i).map Node.x).getD 0.0

/-- The shift of a node's subtree. -/
def shiftAt (t : Tree K) (i : Nat) : K := ((t.node? i).map Node.shift).getD 0.0

/-- The nodes below a node, each with its level, from the highest level to the lowest. -/
def withLevels (t : Tree K) (i : Nat) : List (Nat × Nat) :=
  (t.levelsOf i).zipIdx.flatMap fun (row, level) => row.map (·, level)

/-- Lets the children of a node name it as their parent. -/
def adopt (t : Tree K) (i : Nat) : Tree K :=
  (t.children i).foldl (fun t c => t.modify c (Node.childOf (some i))) t

/-- The first pass at a node; `v` is the distance between two levels. -/
def assignLevel (v : K) (t : Tree K) (i level : Nat) : Tree K :=
  (t.modify i (Node.atHeight (v * (level : K)))).adopt i

/-- The first pass. It returns the levels by the places of the nodes. -/
def assignLevels (v : K) (t : Tree K) (root : Nat) : Tree K × Array Nat :=
  let t := t.modify root (Node.childOf none)
  (t.withLevels root).foldl
    (fun (t, levels) (i, level) => (t.assignLevel v i level, levels.setIfInBounds i level))
    (t, Array.replicate t.size 0)

/-- Climbs from a node to `start` and adds the shifts on the way, that of `start` included. -/
def climb (t : Tree K) (start : Nat) : Nat → Nat → K → K
  | 0, _, x => x
  | steps + 1, i, x =>
    match t.node? i with
    | none => x
    | some n =>
      if i = start then x + n.shift
      else
        match n.parent with
        | none => x + n.shift
        | some p => t.climb start steps p (x + n.shift)

/-- Where a node stands as part of the subtree below `start`. -/
def effectiveX (t : Tree K) (start i : Nat) : K :=
  t.climb start t.size i (t.xAt i)

/-- Shifts the subtree below `right` as far as it must be for a distance of `2 * h` between a level
of the subtree below `left` and the same level of its own. -/
def separateLevel (h : K) (left right : Nat) (t : Tree K) (leftLevel rightLevel : List Nat) :
    Tree K :=
  match Scalar.largest? (leftLevel.map (t.effectiveX left)),
    Scalar.smallest? (rightLevel.map (t.effectiveX right)) with
  | some rightmost, some leftmost =>
    let required := rightmost + 2.0 * h
    if leftmost < required then t.modify right (Node.shifted (required - leftmost)) else t
  | _, _ => t

/-- Shifts the subtree below `right` on one level after the other, as long as both subtrees go on.
-/
def separateLevels (h : K) (left right : Nat) :
    Nat → Tree K → List Nat → List Nat → Tree K
  | 0, t, _, _ => t
  | steps + 1, t, leftLevel, rightLevel =>
    if leftLevel.isEmpty || rightLevel.isEmpty then t
    else
      let t := t.separateLevel h left right leftLevel rightLevel
      separateLevels h left right steps t (t.nextLevel leftLevel) (t.nextLevel rightLevel)

/-- Separates the subtrees of two siblings and returns the middle between the two. -/
def middleX (h : K) (t : Tree K) (left right : Nat) : Tree K × K :=
  let t := separateLevels h left right t.size t [left] [right]
  let leftX := t.xAt left + t.shiftAt left
  let rightX := t.xAt right + t.shiftAt right
  (t, leftX + (rightX - leftX) / 2.0)

/-- The second pass at a node. -/
def putOver (h : K) (t : Tree K) (i : Nat) : Tree K :=
  match t.node? i with
  | none => t
  | some n =>
    let (t, x) :=
      match n.left, n.right with
      | none, none => (t, 0.0)
      | some left, none => (t, t.xAt left + h)
      | none, some right => (t, t.xAt right - h)
      | some left, some right => t.middleX h left right
    t.modify i (Node.placedAt x)

/-- The second pass. -/
def assignRelativeX (h : K) (t : Tree K) : Tree K :=
  t.postOrder.foldl (putOver h) t

end Tree

/-- What the third pass has done so far: the nodes placed, their positions among each other by their
places in the tree, and the extent of the tree. -/
structure Placing (K : Type) where
  tree : Tree K
  minX : K
  maxX : K
  maxY : K
  positions : Array (Option Nat)
  nodes : Array (PlacedNode K)

namespace Placing

variable {K : Type} [Scalar K]

/-- Before the third pass. -/
def start (t : Tree K) : Placing K :=
  { tree := t, minX := 0.0, maxX := 0.0, maxY := 0.0,
    positions := Array.replicate t.size none, nodes := #[] }

/-- The shift of a node together with the one that it inherits. -/
def totalShift (s : Placing K) (n : Node K) : K :=
  match n.parent.bind s.tree.node? with
  | none => n.shift
  | some p => n.shift + p.shift

/-- The position of a node among those placed. -/
def position? (s : Placing K) (i : Nat) : Option Nat := (s.positions[i]?).join

/-- The third pass at a node. -/
def next (levels : Array Nat) (s : Placing K) (i : Nat) : Placing K :=
  match s.tree.node? i with
  | none => s
  | some n =>
    let shift := s.totalShift n
    let x := n.x + shift
    { tree := s.tree.modify i (Node.settledAt x shift)
      minX := Scalar.smaller s.minX x
      maxX := Scalar.larger s.maxX x
      maxY := Scalar.larger s.maxY n.y
      positions := s.positions.setIfInBounds i (some s.nodes.size)
      nodes := s.nodes.push
        { node := i, label := n.label, depth := levels.getD i 0, x, y := n.y, shift,
          parent := n.parent.bind s.position? } }

end Placing

namespace Tree

variable {K : Type} [Scalar K]

/-- The third pass. -/
def finalize (t : Tree K) (levels : Array Nat) : Placing K :=
  t.preOrder.foldl (Placing.next levels) (.start t)

/-- Lays a tree out in place. -/
def layOutInPlace (t : Tree K) (radius : K) (style : Style) (factors : LayoutFactors K) :
    Except (LayoutError K) (Layout K) × Tree K :=
  match t.root with
  | none => (.error .emptyTree, t)
  | some root =>
    if 0.0 < radius ∧ Scalar.isFinite radius then
      let (h, v) := factors.spacing radius style
      let (marginX, marginY) := factors.margins radius style
      let (t, levels) := t.assignLevels v root
      let done := (t.assignRelativeX h).finalize levels
      (.ok
        { horizontalSpacing := h
          verticalSpacing := v
          marginX
          marginY
          pageWidth := 2.0 * marginX + (done.maxX - done.minX)
          pageHeight := 2.0 * marginY + done.maxY
          offsetX := if done.minX < 0.0 then -done.minX else 0.0
          radius := radius + (style.radiusIncrement : K)
          nodes := done.nodes },
        done.tree)
    else (.error (.invalidRadius radius), t)

end Tree

end TreeDiagram
