import TreeDiagram.Drawing.Options
import TreeDiagram.Drawing.Paint
/-!
A page that elements are put on, and its text.

Elements are written in groups, whatever order they were put on the page in: the background, the
edges, the circles of the nodes, which cover the ends of the edges, and the labels on top.
-/

namespace TreeDiagram

/-- The elements of a page. -/
structure Page where
  background : Option Element := none
  edges : Array Element := #[]
  circles : Array Element := #[]
  labels : Array Element := #[]
  deriving DecidableEq, Repr

namespace Page

/-- The page with its background in a color, in place of the one it had. -/
def setBackground (p : Page) (o : SvgOptions) (width height : Float) (color : Color) : Page :=
  let background :=
    { tag := "rect"
      attributes :=
        [("class", o.namePrefix ++ "background"), ("x", "0"), ("y", "0"),
          ("width", coordinateText width), ("height", coordinateText height)]
      styles := color.attributes "fill" }
  { p with background := some background }

/-- The page with one more edge. -/
def addEdge (p : Page) (o : SvgOptions) (x₁ y₁ x₂ y₂ : Float) (styles : String) : Page :=
  let edge :=
    { tag := "line"
      attributes :=
        [("class", o.namePrefix ++ "edge"), ("x1", coordinateText x₁), ("y1", coordinateText y₁),
          ("x2", coordinateText x₂), ("y2", coordinateText y₂)]
      styles }
  { p with edges := p.edges.push edge }

/-- The page with one more circle. Its name is made from a number, since labels may repeat. -/
def addCircle (p : Page) (o : SvgOptions) (id : Nat) (label : String) (x y radius : Float)
    (styles : String) : Page :=
  let circle :=
    { tag := "circle"
      attributes :=
        [("id", o.namePrefix ++ "n" ++ toString id), ("class", o.namePrefix ++ "node"),
          ("data-label", escape label), ("cx", coordinateText x), ("cy", coordinateText y),
          ("r", coordinateText radius)]
      styles }
  { p with circles := p.circles.push circle }

/-- The page with one more label, centered on a point. -/
def addLabel (p : Page) (o : SvgOptions) (text : String) (x y : Float) (styles : String) : Page :=
  let label :=
    { tag := "text"
      attributes :=
        [("class", o.namePrefix ++ "label"), ("x", coordinateText x), ("y", coordinateText y),
          ("text-anchor", "middle"), ("dominant-baseline", "central")]
      styles
      content := some (escape text) }
  { p with labels := p.labels.push label }

/-- The elements in the order in which they are written. -/
def elements (p : Page) : List Element :=
  p.background.toList ++ p.edges.toList ++ p.circles.toList ++ p.labels.toList

/-- The element that encloses all others. -/
def root (o : SvgOptions) (width height : Float) : Element :=
  { tag := "svg"
    attributes :=
      [("xmlns", "http://www.w3.org/2000/svg"), ("width", coordinateText (width * o.scale)),
        ("height", coordinateText (height * o.scale)),
        ("viewBox", "0 0 " ++ coordinateText width ++ " " ++ coordinateText height)] }

/-- The declaration of a document of its own. -/
def declaration : String := "<?xml version=\"1.0\" encoding=\"UTF-8\"?>"

/-- The text of a page. -/
def text (p : Page) (o : SvgOptions) (width height : Float) : String :=
  let root := root o width height
  let start := if o.standalone then declaration ++ o.lineEnd else ""
  p.elements.foldl (fun text e => text ++ o.indent ++ e.text ++ o.lineEnd)
      (start ++ root.opening ++ o.lineEnd)
    ++ root.closing ++ o.lineEnd

end Page

end TreeDiagram
