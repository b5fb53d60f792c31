/-!
How a drawing is written.
-/

namespace TreeDiagram

/-- The options of a drawing. -/
structure SvgOptions where
  /-- Whether the declaration of a document of its own comes first. -/
  standalone : Bool := true
  /-- Whether every element stands on a line of its own. -/
  pretty : Bool := true
  /-- What the names of classes and of nodes begin with. -/
  classPrefix : Option String := some "bt-"
  /-- The size of the page in units of the layout. -/
  scale : Float := 1.0
  /-- The family that stands in for the font of the style, or behind it. -/
  fontFallback : Option String := some "sans-serif"

namespace SvgOptions

/-- The options with another scale. One that is not positive counts as 1. -/
def withScale (o : SvgOptions) (scale : Float) : SvgOptions :=
  { o with scale := if 0.0 < scale then scale else 1.0 }

/-- What the names of classes and of nodes begin with. -/
def namePrefix (o : SvgOptions) : String :=
  o.classPrefix.getD ""

/-- What stands in front of an element. -/
def indent (o : SvgOptions) : String :=
  if o.pretty then "  " else ""

/-- What stands behind an element. -/
def lineEnd (o : SvgOptions) : String :=
  if o.pretty then "\n" else ""

/-- The font families for the family of a style, of which an empty one is none. -/
def fontFamily (o : SvgOptions) (family : String) : Option String :=
  if family = "" then o.fontFallback
  else
    match o.fontFallback with
    | none => some family
    | some fallback => some (family ++ ", " ++ fallback)

end SvgOptions

end TreeDiagram
