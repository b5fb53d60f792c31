import TreeDiagram.Geometry.Plane
import TreeDiagram.Layout.Basic
/-!
The visible part of an edge between a child and its parent.

An edge runs upwards to the parent, never straight up, and is cut off at the circles of both its
ends. It is not drawn at all when the circles touch or overlap.
-/

namespace TreeDiagram

/-- A line from a point near the child to one near the parent. -/
structure Segment (K : Type) where
  childEnd : Point K
  parentEnd : Point K
  deriving DecidableEq, Repr

/-- The place of a node on the page. -/
def Layout.pointOf {K : Type} [Scalar K] (layout : Layout K) (n : PlacedNode K) : Point K :=
  ⟨layout.absoluteX n.x, layout.absoluteY n.y⟩

namespace Segment

variable {K : Type} [Plane K]

/-- Whether a child stands below its parent and beside it, with room for an edge between circles of
a given radius. -/
def hasRoom (child parent : Point K) (radius : K) : Bool :=
  !(Scalar.same child.x parent.x || decide (child.y ≤ parent.y) || Scalar.same radius 0.0 ||
    decide (child.distance parent ≤ 2.0 * radius))

/-- The edge between two points, cut off at circles of a given radius around both. -/
def clip (child parent : Point K) (radius : K) : Option (Segment K) :=
  if hasRoom child parent radius then
    let angle :=
      Plane.angle (Scalar.magnitude (child.y - parent.y)) (Scalar.magnitude (child.x - parent.x))
    let dx := radius * Plane.cosine angle
    let dy := radius * Plane.sine angle
    let (childX, parentX) :=
      if child.x < parent.x then (child.x + dx, parent.x - dx)
      else (child.x - dx, parent.x + dx)
    some ⟨⟨childX, child.y - dy⟩, ⟨parentX, parent.y + dy⟩⟩
  else none

end Segment

end TreeDiagram
