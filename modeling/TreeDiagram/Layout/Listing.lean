import TreeDiagram.Decimal.Shortest
import TreeDiagram.Layout.Basic
/-!
The layout as a text: the measures of the page, then one line for each node, indented by its depth.
Coordinates are given to one decimal.
-/

namespace TreeDiagram

/-- The wording of an error. -/
def LayoutError.message : LayoutError Float → String
  | emptyTree => "there is no tree to lay out"
  | invalidRadius radius => s!"node radius must be positive, got {Decimal.shortest radius}"

namespace Layout

/-- A coordinate in a listing. -/
def listed (x : Float) : String :=
  Decimal.fixed 1 x

/-- The line of a node. -/
def nodeLine (n : PlacedNode Float) : String :=
  let indent := String.ofList (List.replicate (2 * n.depth) ' ')
  s!"{indent}{n.label} ({listed n.x}, {listed n.y})\n"

/-- The listing of a layout. -/
def display (layout : Layout Float) : String :=
  let width := listed layout.pageWidth
  let height := listed layout.pageHeight
  let radius := listed layout.radius
  let offset := listed layout.offsetX
  layout.nodes.foldl (fun text n => text ++ nodeLine n)
    s!"page {width} x {height}, radius {radius}, offset {offset}\n"

end Layout

end TreeDiagram
