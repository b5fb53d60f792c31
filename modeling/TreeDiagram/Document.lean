import TreeDiagram.Description.Parser
import TreeDiagram.Property.Styling
import TreeDiagram.Text.Lines
/-!
Inputs as they are read, before anything is laid out.

The first line that says something carries the start marker and the description of the tree. All
later ones are property lines, which take effect in their order. The first error ends the reading,
and its place is given in the whole input.
-/

namespace TreeDiagram

/-- A tree with the properties set for it, the warnings given on the way, and the number of property
lines. -/
structure Document (K : Type) where
  description : TreeDescription K
  styling : Styling
  diagnostics : List Diagnostic := []
  propertyLines : Nat := 0

/-- The text behind the start marker, in letters of either case, and the sign behind it. -/
def afterStartMarker? (line : List Char) : Option (List Char) :=
  let marker := startMarker.toList
  if (line.take marker.length).map lowercase = marker then
    match (line.drop marker.length).dropWhile isBlank with
    | '=' :: rest => some rest
    | _ => none
  else none

namespace Document

variable {K : Type} [Scalar K]

/-- Reads the tree from the first line. -/
def readStart (styling : Styling) (line : SourceLine) : Except ParseError (Document K) :=
  match afterStartMarker? line.text with
  | none => .error ⟨.startTokenMissing, ⟨line.offset, line.offset + byteLength line.text⟩⟩
  | some rest =>
    let base := line.offset + (byteLength line.text - byteLength rest)
    match TreeDescription.parse rest with
    | .error e => .error (e.shift base)
    | .ok description => .ok { description, styling }

/-- Lets a property line take effect. -/
def readProperties (d : Document K) (line : SourceLine) : Except ParseError (Document K) :=
  match d.styling.applyLine line.text with
  | .error e => .error (e.shift line.offset)
  | .ok (styling, found) =>
    .ok { d with
      styling
      diagnostics := d.diagnostics ++ found.map (Diagnostic.shift line.offset)
      propertyLines := d.propertyLines + 1 }

/-- Reads the lines of an input that say something. -/
def readLines (styling : Styling) : List SourceLine → Except ParseError (Document K)
  | [] => .error ⟨.startTokenMissing, ⟨0, 0⟩⟩
  | first :: rest => do
    let d ← readStart styling first
    rest.foldlM readProperties d

/-- Reads an input over what was set before it. -/
def read (styling : Styling) (source : String) : Except ParseError (Document K) :=
  readLines styling (significantLines source.toList)

end Document

end TreeDiagram
