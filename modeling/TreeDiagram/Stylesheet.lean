import TreeDiagram.Layout.Factors
import TreeDiagram.Property.Cascade
import TreeDiagram.Property.Validation
import TreeDiagram.Toml.Document
/-!
Stylesheets: defaults for the whole diagram and factors for its layout, in a TOML document.

A sheet may have three tables. `metadata` names and describes it, `defaults` gives values to
properties, and `layout` replaces factors of the layout. Other tables and keys are ignored. Every
default is validated when the sheet is read.
-/

namespace TreeDiagram

/-- Why a text is no stylesheet. Of several defaults in error the one with the least name counts. -/
inductive StylesheetError where
  /-- The document is not well formed, or a known key has a value of another type, or a default
  holds a table that only seems to be a date. -/
  | malformed
  | unsupportedValue (name : String)
  | invalidDefault (name : String) (reason : PropertyError)
  deriving DecidableEq, Repr

/-- The wording of an error. -/
def StylesheetError.message : StylesheetError → String
  | malformed => "Failed to parse stylesheet TOML: "
  | unsupportedValue name => s!"Default for {name} must be an integer or a string"
  | invalidDefault name reason => s!"Invalid default for {name}: {reason.message}"

/-- Validated defaults, in the order of their names, and factors for the layout. -/
structure Stylesheet where
  name : Option String := none
  description : Option String := none
  defaults : List (Property × Value) := []
  layout : Option (LayoutFactors Float) := none
  deriving DecidableEq

namespace Stylesheet

open Toml (Table)

/-- The key under which a date is found when it is taken for a table. -/
def dateKey : String := "$__toml_private_datetime"

/-- The entries of a value that is a table. A date counts as a table with a single entry. -/
def entriesOf? : Toml.Value → Option (List (String × Toml.Value))
  | .table _ entries => some entries
  | .datetime => some [(dateKey, .string "")]
  | _ => none

/-- The items of a value that is an array. -/
def itemsOf? : Toml.Value → Option (List Toml.Value)
  | .array items => some items
  | .tables newestFirst => some newestFirst.reverse
  | _ => none

/-- The text of a value that is a string. -/
def textOf? : Toml.Value → Option String
  | .string text => some text
  | _ => none

/-- The number that a value is. -/
def numberOf? : Toml.Value → Option Float
  | .float x => some x
  | .integer n => some (Float.ofInt n)
  | _ => none

/-- Reads an entry that may be missing but must not have another type. -/
def optional {α : Type} (read : Toml.Value → Option α) : Option Toml.Value → Option (Option α)
  | none => some none
  | some v => (read v).map some

/-- The name and the description in a table, or in an array of at least these two. -/
def metadataOf? (v : Toml.Value) : Option (Option String × Option String) :=
  match itemsOf? v with
  | some (name :: description :: _) => do
    some (some (← textOf? name), some (← textOf? description))
  | some _ => none
  | none => do
    let entries ← entriesOf? v
    let name ← optional textOf? (entries.lookup "name")
    let description ← optional textOf? (entries.lookup "description")
    some (name, description)

/-- Replaces a factor by the number that a value is. -/
def replace {α : Type} (set : Float → α → α) (v : Option Toml.Value) (factors : α) : Option α :=
  (optional numberOf? v).map fun x => (x.map fun x => set x factors).getD factors

/-- The layout factors, each with its name and the way to replace it. -/
def factorSetters : List (String × (Float → LayoutFactors Float → LayoutFactors Float)) :=
  [("spacing_factor", fun x f => { f with spacingFactor := x }),
    ("margin_factor", fun x f => { f with marginFactor := x }),
    ("margin_base", fun x f => { f with marginBase := x }),
    ("glyph_width_ratio", fun x f => { f with glyphWidthRatio := x }),
    ("min_radius", fun x f => { f with minRadius := x })]

/-- The factors in a table, or in an array that gives them in their order. Missing ones keep their
defaults. -/
def factorsOf? (v : Toml.Value) : Option (LayoutFactors Float) :=
  match itemsOf? v with
  | some items =>
    (factorSetters.zip items).foldlM (fun f (setter, item) => replace setter.2 (some item) f) {}
  | none => do
    let entries ← entriesOf? v
    factorSetters.foldlM (fun f setter => replace setter.2 (entries.lookup setter.1) f) {}

/-- The raw text of a default: an integer in decimal, or a string. -/
def rawDefault? : Toml.Value → Option String
  | .integer n => some (toString n)
  | .string text => some text
  | _ => none

/-- The property and the value that an entry gives a default to. -/
def readDefault (entry : String × Toml.Value) : Except StylesheetError (Property × Value) :=
  match rawDefault? entry.2 with
  | none => .error (.unsupportedValue entry.1)
  | some raw => (Property.validateNamed entry.1 raw).mapError (.invalidDefault entry.1)

/-- The defaults of a table, visited in the order of their names. -/
def readDefaults (entries : List (String × Toml.Value)) :
    Except StylesheetError (List (Property × Value)) :=
  (entries.mergeSort fun a b => decide (a.1 ≤ b.1)).mapM readDefault

mutual

/-- Whether the dates in a value are dates. A table that begins with the key of a date is one, and
has to give its text there. -/
def datesHold : Toml.Value → Bool
  | .array items => datesHoldInAll items
  | .tables newestFirst => datesHoldInAll newestFirst
  | .table _ [] => true
  | .table _ (first :: others) =>
    if first.1 = dateKey then (textOf? first.2).any fun text => Toml.isDatetime text.toList
    else datesHoldInEntry first && datesHoldInEntries others
  | _ => true

/-- Whether the dates in all items are dates. -/
def datesHoldInAll : List Toml.Value → Bool
  | [] => true
  | v :: rest => datesHold v && datesHoldInAll rest

/-- Whether the dates in an entry are dates. -/
def datesHoldInEntry : String × Toml.Value → Bool
  | (_, v) => datesHold v

/-- Whether the dates in all entries are dates. -/
def datesHoldInEntries : List (String × Toml.Value) → Bool
  | [] => true
  | e :: rest => datesHoldInEntry e && datesHoldInEntries rest

end

/-- The entries of a table of defaults, if the dates in their values are dates. -/
def defaultsOf? (v : Toml.Value) : Option (List (String × Toml.Value)) :=
  (entriesOf? v).filter datesHoldInEntries

/-- The parts of a document that a stylesheet consists of. -/
structure Parts where
  metadata : Option (Option String × Option String)
  defaults : List (String × Toml.Value)
  layout : Option (LayoutFactors Float)

/-- Takes the known tables out of a document. -/
def partsOf? (document : Table) : Option Parts := do
  let metadata ← optional metadataOf? (document.find? "metadata")
  let defaults ← optional defaultsOf? (document.find? "defaults")
  let layout ← optional factorsOf? (document.find? "layout")
  some { metadata, defaults := defaults.getD [], layout }

/-- The stylesheet that a TOML document contains. -/
def parse (text : String) : Except StylesheetError Stylesheet :=
  match (Toml.parse text).bind partsOf? with
  | none => .error .malformed
  | some parts =>
    (readDefaults parts.defaults).map fun defaults =>
      { name := parts.metadata.bind Prod.fst
        description := parts.metadata.bind Prod.snd
        defaults
        layout := parts.layout }

/-- Makes every default an assignment to the whole diagram. -/
def apply (sheet : Stylesheet) (c : Cascade) : Cascade :=
  c.setAllGlobal sheet.defaults

end Stylesheet

end TreeDiagram
