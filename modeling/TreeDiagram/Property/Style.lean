import TreeDiagram.Property.Basic
/-!
A value for every property.

Reading and writing the properties of a style obey the laws of a store: a value of the right kind
reads back and disturbs no other property, and a value of the wrong kind changes nothing.
-/

namespace TreeDiagram

/-- Opaque black. -/
def defaultInk : Nat := 0x000000ff

/-- A value for every property. -/
structure Style where
  /-- The text drawn in the node; when empty, the node's label is drawn. -/
  nodeLabel : String := ""
  /-- The radius of the node's circle; when zero, that of the layout. -/
  nodeRadius : Nat := 0
  borderColor : Nat := defaultInk
  borderWidth : Nat := 1
  borderDash : String := ""
  fillColor : Nat := 0
  edgeColor : Nat := defaultInk
  edgeWidth : Nat := 1
  edgeDash : String := ""
  fontColor : Nat := defaultInk
  fontFamily : String := ""
  fontSize : Nat := 10
  /-- Upright when zero, else italic. -/
  fontSlant : Nat := 0
  /-- Normal when zero, else bold. -/
  fontWeight : Nat := 0
  radiusIncrement : Nat := 1
  edgeXIncrement : Nat := 5
  edgeYIncrement : Nat := 5
  pageBackgroundColor : Nat := 32
  pageMarginXIncrement : Nat := 0
  pageMarginYIncrement : Nat := 0
  deriving DecidableEq, Repr, Inhabited

namespace Style

/-- The value of a property. -/
def get (s : Style) : Property → Value
  | .nodeLabel => .text s.nodeLabel
  | .nodeRadius => .number s.nodeRadius
  | .borderColor => .number s.borderColor
  | .borderWidth => .number s.borderWidth
  | .borderDash => .text s.borderDash
  | .fillColor => .number s.fillColor
  | .edgeColor => .number s.edgeColor
  | .edgeWidth => .number s.edgeWidth
  | .edgeDash => .text s.edgeDash
  | .fontColor => .number s.fontColor
  | .fontFamily => .text s.fontFamily
  | .fontSize => .number s.fontSize
  | .fontSlant => .number s.fontSlant
  | .fontWeight => .number s.fontWeight
  | .radiusIncrement => .number s.radiusIncrement
  | .edgeXIncrement => .number s.edgeXIncrement
  | .edgeYIncrement => .number s.edgeYIncrement
  | .pageBackgroundColor => .number s.pageBackgroundColor
  | .pageMarginXIncrement => .number s.pageMarginXIncrement
  | .pageMarginYIncrement => .number s.pageMarginYIncrement

/-- The style with another value for a property. A value of the wrong kind is ignored. -/
def set (s : Style) : Property → Value → Style
  | .nodeLabel, .text t => { s with nodeLabel := t }
  | .nodeRadius, .number n => { s with nodeRadius := n }
  | .borderColor, .number n => { s with borderColor := n }
  | .borderWidth, .number n => { s with borderWidth := n }
  | .borderDash, .text t => { s with borderDash := t }
  | .fillColor, .number n => { s with fillColor := n }
  | .edgeColor, .number n => { s with edgeColor := n }
  | .edgeWidth, .number n => { s with edgeWidth := n }
  | .edgeDash, .text t => { s with edgeDash := t }
  | .fontColor, .number n => { s with fontColor := n }
  | .fontFamily, .text t => { s with fontFamily := t }
  | .fontSize, .number n => { s with fontSize := n }
  | .fontSlant, .number n => { s with fontSlant := n }
  | .fontWeight, .number n => { s with fontWeight := n }
  | .radiusIncrement, .number n => { s with radiusIncrement := n }
  | .edgeXIncrement, .number n => { s with edgeXIncrement := n }
  | .edgeYIncrement, .number n => { s with edgeYIncrement := n }
  | .pageBackgroundColor, .number n => { s with pageBackgroundColor := n }
  | .pageMarginXIncrement, .number n => { s with pageMarginXIncrement := n }
  | .pageMarginYIncrement, .number n => { s with pageMarginYIncrement := n }
  | _, _ => s

/-- The style with several properties set one after the other. -/
def setAll (s : Style) (assignments : List (Property × Value)) : Style :=
  assignments.foldl (fun s a => s.set a.1 a.2) s

end Style

end TreeDiagram
