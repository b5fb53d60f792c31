import TreeDiagram.Geometry.Hypotenuse
import TreeDiagram.Scalar
/-!
Points in the plane and the distance between them.

Lengths and angles need more of a number than the four operations; a number type that offers them is
a `Plane`. Floating point numbers do.
-/

namespace TreeDiagram

/-- Numbers with lengths and angles. -/
class Plane (K : Type) extends Scalar K where
  /-- The length of the hypotenuse over two legs. -/
  hypotenuse : K → K → K
  /-- The angle of the point with given height and width. -/
  angle : K → K → K
  cosine : K → K
  sine : K → K

instance : Plane Float where
  hypotenuse := Geometry.hypotenuse
  angle := Float.atan2
  cosine := Float.cos
  sine := Float.sin

/-- A point with its coordinates. -/
structure Point (K : Type) where
  x : K
  y : K
  deriving DecidableEq, Repr

/-- The distance between two points. -/
def Point.distance {K : Type} [Plane K] (p q : Point K) : K :=
  Plane.hypotenuse (p.x - q.x) (p.y - q.y)

end TreeDiagram
