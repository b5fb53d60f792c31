import TreeDiagram.Scalar
import TreeDiagram.Tree.Shape
/-!
The horizontal places of the nodes of a tree.

Each subtree is arranged on its own, its leaves at zero. A parent of two stands in the middle over
its children, after the right subtree was moved away from the left one until they keep their
distance on every level that both of them reach. A parent of one stands a step beside its child. A
subtree is moved by a shift at its top, which counts for all its nodes.
-/

namespace TreeDiagram

/-- The place of a node before the shifts of the subtrees it belongs to, and the shift of the
subtree below it. -/
structure Spot (K : Type) where
  node : Nat
  x : K
  shift : K
  deriving DecidableEq, Repr

/-- A tree with the place of each node. -/
abbrev Arrangement (K : Type) := Shape (Spot K)

namespace Arrangement

variable {K : Type} [Scalar K]

/-- The places of the nodes on a level, from left to right, with all shifts from the node up to the
top of the arrangement. -/
def row : Nat → Arrangement K → List K
  | _, .empty => []
  | 0, .node s _ _ => [s.x + s.shift]
  | k + 1, .node s l r => (row k l ++ row k r).map (· + s.shift)

/-- The arrangement moved to the right. -/
def moved (distance : K) : Arrangement K → Arrangement K
  | .empty => .empty
  | .node s l r => .node { s with shift := s.shift + distance } l r

/-- The right arrangement moved as far as it must be for a distance of `2 * h` to the left one on
one level. -/
def separateLevel (h : K) (left right : Arrangement K) (level : Nat) : Arrangement K :=
  match Scalar.largest? (row level left), Scalar.smallest? (row level right) with
  | some rightmost, some leftmost =>
    let required := rightmost + 2.0 * h
    if leftmost < required then right.moved (required - leftmost) else right
  | _, _ => right

/-- The right arrangement moved as far as it must be on the levels that both arrangements reach. -/
def separate (h : K) (left right : Arrangement K) : Arrangement K :=
  (List.range (min left.height right.height)).foldl (separateLevel h left) right

/-- Where the top of an arrangement stands. -/
def top (a : Arrangement K) : K :=
  match a with
  | .empty => 0.0
  | .node s _ _ => s.x + s.shift

/-- The middle between the tops of two arrangements. -/
def middle (left right : Arrangement K) : K :=
  left.top + (right.top - left.top) / 2.0

/-- Puts a parent over the arrangements of its children. -/
def join (h : K) (node : Nat) : Arrangement K → Arrangement K → Arrangement K
  | .empty, .empty => .node ⟨node, 0.0, 0.0⟩ .empty .empty
  | .node s l r, .empty => .node ⟨node, s.x + h, 0.0⟩ (.node s l r) .empty
  | .empty, .node s l r => .node ⟨node, s.x - h, 0.0⟩ .empty (.node s l r)
  | left, right =>
    let right := separate h left right
    .node ⟨node, middle left right, 0.0⟩ left right

/-- The arrangement of a tree, where a child is at least `h` beside its parent. -/
def ofShape (h : K) : Shape Nat → Arrangement K
  | .empty => .empty
  | .node i l r => join h i (ofShape h l) (ofShape h r)

end Arrangement

end TreeDiagram
