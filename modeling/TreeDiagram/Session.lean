import TreeDiagram.Document
import TreeDiagram.Layout.Basic
import TreeDiagram.Stylesheet
/-!
From an input to a tree that is laid out and whose nodes all have a style.

The defaults of a stylesheet come first, then the lines of the input. The radius of the nodes is
chosen for the longest label.
-/

namespace TreeDiagram

/-- Why there is no diagram. -/
inductive SessionError (K : Type) where
  | parse (e : ParseError)
  | layout (e : LayoutError K)
  deriving DecidableEq, Repr

/-- A document whose tree is laid out. -/
structure Session (K : Type) where
  document : Document K
  /-- The tree with its coordinates filled in. -/
  tree : Tree K
  layout : Layout K

namespace Session

variable {K : Type} [Scalar K]

/-- What is set before an input is read: the defaults of a stylesheet, in a table that holds at most
`capacity` nodes. -/
def initialStyling (sheet : Stylesheet) (capacity : Nat) : Styling :=
  { table := .ofCapacity capacity, cascade := sheet.apply {} }

/-- Lays the tree of a document out. -/
def ofDocument (factors : LayoutFactors K) (d : Document K) :
    Except (LayoutError K) (Session K) :=
  let style := d.styling.cascade.overrides
  let radius := factors.bestRadius d.description.longestLabel style
  (d.description.tree.layOut radius style factors).map fun (layout, tree) =>
    { document := d, tree, layout }

/-- Reads an input under a stylesheet and lays its tree out. -/
def parse (source : String) (factors : LayoutFactors K := {}) (sheet : Stylesheet := {})
    (capacity : Nat := maxNodeId) : Except (SessionError K) (Session K) :=
  match Document.read (initialStyling sheet capacity) source with
  | .error e => .error (.parse e)
  | .ok d => (ofDocument factors d).mapError .layout

/-- The warnings given while the input was read. -/
def diagnostics (s : Session K) : List Diagnostic :=
  s.document.diagnostics

/-- The properties set for single nodes. -/
def table (s : Session K) : PropertyTable :=
  s.document.styling.table

/-- The style of the whole diagram and the passes over its nodes. -/
def cascade (s : Session K) : Cascade :=
  s.document.styling.cascade

/-- The style of the whole diagram. -/
def overrides (s : Session K) : Style :=
  s.cascade.overrides

/-- The style of a node with a given label. -/
def resolveLabel (s : Session K) (label : String) : Style :=
  s.cascade.seed.resolveOne (s.table.findLabel? label)

/-- The style of a placed node. -/
def resolve (s : Session K) (n : PlacedNode K) : Style :=
  s.resolveLabel n.label

/-- The placed nodes in their order, each with its style. -/
def styledNodes (s : Session K) : List (PlacedNode K × Style) :=
  let nodes := s.layout.nodes.toList
  nodes.zip (s.cascade.seed.styles (nodes.map fun n => s.table.findLabel? n.label))

end Session

end TreeDiagram
