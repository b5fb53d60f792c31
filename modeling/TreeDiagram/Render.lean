import TreeDiagram.Drawing.Scene
import TreeDiagram.Layout.Listing
/-!
From an input to its drawing in one step.
-/

namespace TreeDiagram

/-- What a drawing is made with. -/
structure RenderConfig where
  layout : LayoutFactors Float := {}
  svg : SvgOptions := {}
  stylesheet : Stylesheet := {}

namespace RenderConfig

/-- The configuration with other layout factors. -/
def withLayout (c : RenderConfig) (layout : LayoutFactors Float) : RenderConfig :=
  { c with layout }

/-- The configuration with a stylesheet. Layout factors of the sheet replace those of the
configuration. -/
def withStylesheet (c : RenderConfig) (stylesheet : Stylesheet) : RenderConfig :=
  { c with stylesheet, layout := stylesheet.layout.getD c.layout }

end RenderConfig

/-- The wording of an error in a drawing. -/
def SessionError.message : SessionError Float → String
  | parse e => s!"parse error: {e.message}"
  | layout e => s!"layout error: {e.message}"

/-- An input that is read and laid out under a configuration. -/
def RenderConfig.session (c : RenderConfig) (source : String) :
    Except (SessionError Float) (Session Float) :=
  Session.parse source c.layout c.stylesheet

/-- The drawing of an input and the warnings given on the way. -/
def renderWithDiagnostics (source : String) (c : RenderConfig) :
    Except (SessionError Float) (String × List Diagnostic) :=
  (c.session source).map fun s => (s.svg c.svg, s.diagnostics)

/-- The drawing of an input. -/
def render (source : String) (c : RenderConfig := {}) : Except (SessionError Float) String :=
  (renderWithDiagnostics source c).map Prod.fst

end TreeDiagram
