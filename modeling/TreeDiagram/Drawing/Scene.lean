import TreeDiagram.Drawing.Edge
import TreeDiagram.Drawing.Page
import TreeDiagram.Session
/-!
The drawing of a tree that is laid out: for every node the edge to its parent, its circle and its
label, each with the node's own style.
-/

namespace TreeDiagram

namespace Session

variable {K : Type} [Plane K]

/-- The radius that a node's circle is drawn with. -/
def drawnRadius (layout : Layout K) (style : Style) : K :=
  if 0 < style.nodeRadius then (style.nodeRadius : K) else layout.radius

/-- The edge from a node to its parent, if it is drawn. -/
def edgeOf? (layout : Layout K) (n : PlacedNode K) (style : Style) : Option (Segment K) :=
  (layout.parentOf? n).bind fun parent =>
    Segment.clip (layout.pointOf n) (layout.pointOf parent) (drawnRadius layout style)

end Session

namespace Style

/-- The attributes of an edge. -/
def edgeAttributes (s : Style) : String :=
  (Color.mk s.edgeColor).attributes "stroke" ++
    attributeText "stroke-width" (toString s.edgeWidth) ++ Dash.attributesOf s.edgeDash

/-- The attributes of a circle. -/
def circleAttributes (s : Style) : String :=
  (Color.mk s.fillColor).attributes "fill" ++ (Color.mk s.borderColor).attributes "stroke" ++
    attributeText "stroke-width" (toString s.borderWidth) ++ Dash.attributesOf s.borderDash

/-- The attributes of a label. -/
def labelAttributes (s : Style) (o : SvgOptions) : String :=
  let family :=
    match o.fontFamily s.fontFamily with
    | none => ""
    | some family => attributeText "font-family" (escape family)
  let slant := if 0 < s.fontSlant then attributeText "font-style" "italic" else ""
  let weight := if 0 < s.fontWeight then attributeText "font-weight" "bold" else ""
  attributeText "font-size" (toString s.fontSize) ++ family ++ slant ++ weight ++
    (Color.mk s.fontColor).attributes "fill"

/-- The text drawn in a node with a given label. -/
def textFor (s : Style) (label : String) : String :=
  if s.nodeLabel = "" then label else s.nodeLabel

end Style

namespace Session

/-- The page with a node drawn on it. -/
def drawNode (o : SvgOptions) (layout : Layout Float) (page : Page)
    (styled : PlacedNode Float × Style) : Page :=
  let (n, style) := styled
  let center := layout.pointOf n
  let page :=
    match edgeOf? layout n style with
    | none => page
    | some edge =>
      page.addEdge o edge.childEnd.x edge.childEnd.y edge.parentEnd.x edge.parentEnd.y
        style.edgeAttributes
  let page :=
    page.addCircle o n.node n.label center.x center.y (drawnRadius layout style)
      style.circleAttributes
  page.addLabel o (style.textFor n.label) center.x center.y (style.labelAttributes o)

/-- The page with the whole tree drawn on it. -/
def page (s : Session Float) (o : SvgOptions) : Page :=
  let background :=
    ({} : Page).setBackground o s.layout.pageWidth s.layout.pageHeight
      ⟨s.overrides.pageBackgroundColor⟩
  s.styledNodes.foldl (drawNode o s.layout) background

/-- The drawing as text. -/
def svg (s : Session Float) (o : SvgOptions := {}) : String :=
  (s.page o).text o s.layout.pageWidth s.layout.pageHeight

end Session

end TreeDiagram
