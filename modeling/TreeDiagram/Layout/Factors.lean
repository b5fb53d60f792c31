import TreeDiagram.Scalar
import TreeDiagram.Property.Style
/-!
The factors that sizes are multiplied with, and the distances that follow from them.

Spacing and margins grow with the radius of the nodes; the increments of the style are added on top.
An edge leaves its parent at sixty degrees to the horizontal.
-/

namespace TreeDiagram

/-- The factors of a layout. -/
structure LayoutFactors (K : Type) [Scalar K] where
  /-- The length of an edge, in radii. -/
  spacingFactor : K := 2.1
  /-- The margins of the page on two opposite sides together, in radii. -/
  marginFactor : K := 2.5
  /-- The part of every margin that does not depend on the radius. -/
  marginBase : K := 5.0
  /-- The mean width of a letter, in font sizes. -/
  glyphWidthRatio : K := 0.7
  /-- The smallest radius that is chosen for a label. -/
  minRadius : K := 2.0
  deriving DecidableEq

namespace LayoutFactors

variable {K : Type} [Scalar K]

/-- The sine of thirty degrees. -/
def sinThirty : K := 0.5

/-- The sine of sixty degrees, to sixteen places. -/
def sinSixty : K := 0.8660254037844386

/-- The horizontal and the vertical distance between a parent and its children. -/
def spacing (f : LayoutFactors K) (radius : K) (style : Style) : K × K :=
  let reach := f.spacingFactor * radius
  (sinThirty * reach + (style.edgeXIncrement : K), sinSixty * reach + (style.edgeYIncrement : K))

/-- The margins at the sides and at the top and bottom of the page. -/
def margins (f : LayoutFactors K) (radius : K) (style : Style) : K × K :=
  let base := f.marginBase + sinThirty * f.marginFactor * radius
  (base + (style.pageMarginXIncrement : K), base + (style.pageMarginYIncrement : K))

/-- The mean width of a letter in the font of a style. Bold letters are wider. -/
def glyphWidth (f : LayoutFactors K) (style : Style) : K :=
  let width := f.glyphWidthRatio * (style.fontSize : K)
  if style.fontWeight = 0 then width else width * 1.1

/-- The radius that fits a label of a given length. -/
def bestRadius (f : LayoutFactors K) (labelLength : Nat) (style : Style) : K :=
  Scalar.larger ((labelLength : K) * f.glyphWidth style / 2.0) f.minRadius

end LayoutFactors

end TreeDiagram
