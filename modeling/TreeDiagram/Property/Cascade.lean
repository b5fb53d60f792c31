import TreeDiagram.Property.Style
import TreeDiagram.Property.Table
/-!
Which style a node has: the style of the whole diagram with the node's own properties on top.

A pass over many nodes keeps one style as its view and takes back, before each node, only what the
node before it changed. `Cascade.styleOf` says directly what each node of a pass sees.
-/

namespace TreeDiagram

/-- The properties set for a node as assignments; places outside the order name no property. -/
def NodeProperties.assignments (info : NodeProperties) : List (Property × Value) :=
  info.entries.filterMap fun e => (Property.ofIndex? e.1).map fun p => (p, e.2)

/-- The properties of a node that may have none. -/
def ownAssignments (info : Option NodeProperties) : List (Property × Value) :=
  (info.map NodeProperties.assignments).getD []

/-- The style of the whole diagram, and the view left by the last pass over its nodes. -/
structure Cascade where
  overrides : Style := {}
  view : Style := {}
  deriving DecidableEq, Repr, Inhabited

/-- A pass over nodes: the style of the whole diagram, the style of the node seen last, and the
properties that this node set itself. -/
structure Resolver where
  overrides : Style
  view : Style
  touched : List Property
  deriving DecidableEq, Repr

namespace Cascade

/-- Sets a property for the whole diagram. -/
def setGlobal (c : Cascade) (p : Property) (v : Value) : Cascade :=
  { overrides := c.overrides.set p v, view := c.view.set p v }

/-- Sets several properties for the whole diagram, one after the other. -/
def setAllGlobal (c : Cascade) (assignments : List (Property × Value)) : Cascade :=
  assignments.foldl (fun c a => c.setGlobal a.1 a.2) c

/-- Starts a pass from the style of the whole diagram. -/
def seed (c : Cascade) : Resolver :=
  { overrides := c.overrides, view := c.overrides, touched := [] }

/-- The style of a node: its own properties over those of the whole diagram. -/
def styleOf (c : Cascade) (info : Option NodeProperties) : Style :=
  c.overrides.setAll (ownAssignments info)

end Cascade

namespace Resolver

/-- The view with the properties of the last node taken back. -/
def rewound (r : Resolver) : Style :=
  r.touched.foldl (fun s p => s.set p (r.overrides.get p)) r.view

/-- Goes on to a node, whose style is then the view. -/
def resolve (r : Resolver) (info : Option NodeProperties) : Resolver :=
  let own := ownAssignments info
  { r with view := r.rewound.setAll own, touched := own.map Prod.fst }

/-- The style of a last node, set over the view without taking anything back. -/
def resolveOne (r : Resolver) (info : Option NodeProperties) : Style :=
  r.view.setAll (ownAssignments info)

/-- The styles of the nodes of a pass, in its order. -/
def styles (r : Resolver) : List (Option NodeProperties) → List Style
  | [] => []
  | info :: rest =>
    let next := r.resolve info
    next.view :: styles next rest

end Resolver

end TreeDiagram
