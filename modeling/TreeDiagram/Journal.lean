import TreeDiagram.Render
/-!
What happens while an input is read, laid out and drawn, as a list of events in their order.

The events of a reading that fails are those up to its failure. An ignored property is noted while
its line is scanned, whether or not the line is accepted in the end.
-/

namespace TreeDiagram

/-- Something that happened. -/
inductive Event where
  | parsedTree (nodes longestLabel : Nat)
  | ignoredProperty (node : NodeId) (property : Property)
  | storedProperties (node : NodeId) (assignments : Nat)
  | appliedGlobal (property : Property) (value : Value)
  | warned (d : Diagnostic)
  | readProperties (lines nodes : Nat)
  | laidOut (nodes : Nat) (width height radius : Float)
  | invalidDash (label : String) (property : Property) (text : String)
  | drawn (width height : Float)

/-- How much an event matters. -/
inductive Severity where
  | warning
  | info
  | debug
  deriving DecidableEq, Repr

namespace Event

/-- How much an event matters. -/
def severity : Event → Severity
  | parsedTree _ _ => .info
  | ignoredProperty _ _ | warned _ | invalidDash _ _ _ => .warning
  | storedProperties _ _ | appliedGlobal _ _ | readProperties _ _ | laidOut _ _ _ _ | drawn _ _ =>
    .debug

/-- The wording of an event. -/
def message : Event → String
  | parsedTree _ _ => "Parsed tree"
  | ignoredProperty _ _ => "Extend property ignored in node scope"
  | storedProperties _ _ => "Stored node properties"
  | appliedGlobal _ _ => "Applied global property"
  | warned d => d.message
  | readProperties _ _ => "Read properties"
  | laidOut _ _ _ _ => "Layout computed"
  | invalidDash _ _ _ => "Dash pattern is invalid and is not used"
  | drawn _ _ => "Rendered SVG"

end Event

namespace Journal

/-- The effect of an accepted line. -/
def effects (line : ScannedLine) : List Event :=
  match line.scope with
  | .node id =>
    if line.assignments.isEmpty then [] else [.storedProperties id line.assignments.length]
  | .global => line.assignments.map fun a => .appliedGlobal a.property a.value

/-- The events of a property line that is read after others. -/
def ofLine (styling : Styling) (line : List Char) : List Event :=
  let ignored := (ignoredProperties line).map fun (id, property) => .ignoredProperty id property
  match scanLine line, styling.applyLine line with
  | .ok scanned, .ok (_, found) => ignored ++ effects scanned ++ found.map .warned
  | _, _ => ignored

/-- The events of property lines, and the document that they end with unless one is rejected. -/
def ofPropertyLines (d : Document Float) : List SourceLine → List Event × Option (Document Float)
  | [] => ([], some d)
  | line :: rest =>
    let events := ofLine d.styling line.text
    match d.readProperties line with
    | .error _ => (events, none)
    | .ok next =>
      let more := ofPropertyLines next rest
      (events ++ more.1, more.2)

/-- The events of a reading, and the document that it ends with unless it fails. -/
def ofLines (styling : Styling) : List SourceLine → List Event × Option (Document Float)
  | [] => ([], none)
  | first :: rest =>
    match Document.readStart styling first with
    | .error _ => ([], none)
    | .ok d =>
      let more := ofPropertyLines d rest
      (.parsedTree d.description.tree.size d.description.longestLabel :: more.1, more.2)

/-- The events of drawing a node: dash patterns that are not used, that of the edge only if the edge
is drawn. -/
def ofNode (layout : Layout Float) (styled : PlacedNode Float × Style) : List Event :=
  let (n, style) := styled
  let edge :=
    if (Session.edgeOf? layout n style).isSome && Dash.isInvalid style.edgeDash then
      [.invalidDash n.label .edgeDash style.edgeDash]
    else []
  let border :=
    if Dash.isInvalid style.borderDash then [.invalidDash n.label .borderDash style.borderDash]
    else []
  edge ++ border

/-- The event that a tree was laid out. -/
def ofLayout (layout : Layout Float) : Event :=
  .laidOut layout.nodes.size layout.pageWidth layout.pageHeight layout.radius

/-- The events of drawing a session. -/
def ofDrawing (s : Session Float) : List Event :=
  s.styledNodes.flatMap (ofNode s.layout) ++ [.drawn s.layout.pageWidth s.layout.pageHeight]

/-- The events of reading and laying out an input, and the session they lead to unless that fails.
-/
def ofSession (c : RenderConfig) (source : String) : List Event × Option (Session Float) :=
  let styling := Session.initialStyling c.stylesheet maxNodeId
  let (events, document) := ofLines styling (significantLines source.toList)
  match document with
  | none => (events, none)
  | some d =>
    let read : Event := .readProperties d.propertyLines d.styling.table.size
    match Session.ofDocument c.layout d with
    | .error _ => (events ++ [read], none)
    | .ok s => (events ++ [read, ofLayout s.layout], some s)

/-- The events of reading, laying out and drawing an input, and whether it was drawn. -/
def ofSource (source : String) (c : RenderConfig := {}) : Bool × List Event :=
  match ofSession c source with
  | (events, none) => (false, events)
  | (events, some s) => (true, events ++ ofDrawing s)

end Journal

end TreeDiagram
