/-!
The properties that style a tree diagram.

There are twenty of them, in a fixed order. Every property has a name, a rule that its values obey,
and a scope: a base property may be set for a single node as well as for the whole diagram, an
extend property for the whole diagram only.
-/

namespace TreeDiagram

/-- A style property. -/
inductive Property where
  | nodeLabel
  | nodeRadius
  | borderColor
  | borderWidth
  | borderDash
  | fillColor
  | edgeColor
  | edgeWidth
  | edgeDash
  | fontColor
  | fontFamily
  | fontSize
  | fontSlant
  | fontWeight
  | radiusIncrement
  | edgeXIncrement
  | edgeYIncrement
  | pageBackgroundColor
  | pageMarginXIncrement
  | pageMarginYIncrement
  deriving DecidableEq, Repr

/-- Whether a property may be set for single nodes or only for the whole diagram. -/
inductive Scope where
  | base
  | extend
  deriving DecidableEq, Repr

/-- The value of a property. -/
inductive Value where
  | number (n : Nat)
  | text (s : String)
  deriving DecidableEq, Repr

/-- Which values a property takes: numbers from `min` to `max`, or texts of `min` to `max` bytes. -/
inductive Rule where
  | range (min max : Nat)
  | length (min max : Nat)
  deriving DecidableEq, Repr

/-- A number is written in decimal, a text in quotes that are not escaped. -/
def Value.display : Value → String
  | .number n => toString n
  | .text s => "\"" ++ s ++ "\""

/-- The value is of the rule's kind and obeys it. -/
def Rule.Admits : Rule → Value → Prop
  | .range min max, .number n => min ≤ n ∧ n ≤ max
  | .length min max, .text s => min ≤ s.utf8ByteSize ∧ s.utf8ByteSize ≤ max
  | .range _ _, .text _ => False
  | .length _ _, .number _ => False

instance (r : Rule) (v : Value) : Decidable (r.Admits v) := by
  cases r <;> cases v <;> unfold Rule.Admits <;> infer_instance

/-- The largest number that fits in 32 bits. -/
def maxWord : Nat := 0xffffffff

namespace Property

/-- All properties in their order. -/
def all : List Property :=
  [nodeLabel, nodeRadius, borderColor, borderWidth, borderDash, fillColor, edgeColor, edgeWidth,
    edgeDash, fontColor, fontFamily, fontSize, fontSlant, fontWeight, radiusIncrement,
    edgeXIncrement, edgeYIncrement, pageBackgroundColor, pageMarginXIncrement,
    pageMarginYIncrement]

/-- The place of a property in the order. -/
def index : Property → Nat
  | nodeLabel => 0
  | nodeRadius => 1
  | borderColor => 2
  | borderWidth => 3
  | borderDash => 4
  | fillColor => 5
  | edgeColor => 6
  | edgeWidth => 7
  | edgeDash => 8
  | fontColor => 9
  | fontFamily => 10
  | fontSize => 11
  | fontSlant => 12
  | fontWeight => 13
  | radiusIncrement => 14
  | edgeXIncrement => 15
  | edgeYIncrement => 16
  | pageBackgroundColor => 17
  | pageMarginXIncrement => 18
  | pageMarginYIncrement => 19

/-- The name under which a property is written, in the input as in messages. -/
def name : Property → String
  | nodeLabel => "NodeLabel"
  | nodeRadius => "NodeRadius"
  | borderColor => "BorderColor"
  | borderWidth => "BorderWidth"
  | borderDash => "BorderDash"
  | fillColor => "FillColor"
  | edgeColor => "EdgeColor"
  | edgeWidth => "EdgeWidth"
  | edgeDash => "EdgeDash"
  | fontColor => "FontColor"
  | fontFamily => "FontFamily"
  | fontSize => "FontSize"
  | fontSlant => "FontSlant"
  | fontWeight => "FontWeight"
  | radiusIncrement => "RadiusIncrement"
  | edgeXIncrement => "EdgeXIncrement"
  | edgeYIncrement => "EdgeYIncrement"
  | pageBackgroundColor => "PageBackgroundColor"
  | pageMarginXIncrement => "PageMarginXIncrement"
  | pageMarginYIncrement => "PageMarginYIncrement"

/-- The first ten properties belong to a node, the others to the page and its fonts. -/
def scope : Property → Scope
  | nodeLabel | nodeRadius | borderColor | borderWidth | borderDash | fillColor | edgeColor
  | edgeWidth | edgeDash | fontColor => .base
  | fontFamily | fontSize | fontSlant | fontWeight | radiusIncrement | edgeXIncrement
  | edgeYIncrement | pageBackgroundColor | pageMarginXIncrement | pageMarginYIncrement => .extend

/-- The values that a property takes. -/
def rule : Property → Rule
  | nodeLabel => .length 1 64
  | nodeRadius => .range 0 255
  | borderColor => .range 0 maxWord
  | borderWidth => .range 0 12
  | borderDash => .length 1 255
  | fillColor => .range 0 maxWord
  | edgeColor => .range 0 maxWord
  | edgeWidth => .range 0 12
  | edgeDash => .length 1 255
  | fontColor => .range 0 maxWord
  | fontFamily => .length 1 64
  | fontSize => .range 10 36
  | fontSlant => .range 0 1
  | fontWeight => .range 0 1
  | radiusIncrement => .range 0 360
  | edgeXIncrement => .range 0 360
  | edgeYIncrement => .range 0 360
  | pageBackgroundColor => .range 0 maxWord
  | pageMarginXIncrement => .range 0 255
  | pageMarginYIncrement => .range 0 255

/-- The property of a name. Upper and lower case differ. -/
def ofName? (name : String) : Option Property :=
  all.find? fun p => p.name == name

/-- The property at a place of the order. -/
def ofIndex? (index : Nat) : Option Property :=
  all[index]?

@[simp] theorem ofIndex?_index (p : Property) : ofIndex? p.index = some p := by
  cases p <;> rfl

@[simp] theorem ofName?_name (p : Property) : ofName? p.name = some p := by
  cases p <;> decide

end Property

end TreeDiagram
