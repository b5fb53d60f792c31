import TreeDiagram.Property.Cascade
import TreeDiagram.Property.Line
/-!
Everything that property lines have set so far: the properties of single nodes and the style of the
whole diagram. A line takes effect as a whole or, when it is rejected, not at all.
-/

namespace TreeDiagram

/-- An assignment as it is stored for a node. -/
def Assignment.entry (a : Assignment) : Entry :=
  (a.property.index, a.value)

/-- An assignment as it is made to the style of the whole diagram. -/
def Assignment.pair (a : Assignment) : Property × Value :=
  (a.property, a.value)

/-- The properties of single nodes and the style of the whole diagram. -/
structure Styling where
  table : PropertyTable := {}
  cascade : Cascade := {}

namespace Styling

/-- Lets an accepted line of `length` bytes take effect. A line that assigns nothing to its node
does not enter the node into the table. -/
def commit (s : Styling) (length : Nat) (line : ScannedLine) : Except ParseError Styling :=
  match line.scope with
  | .global =>
    .ok { s with cascade := s.cascade.setAllGlobal (line.assignments.map Assignment.pair) }
  | .node id =>
    if line.assignments.isEmpty then .ok s
    else
      match s.table.merge id (line.assignments.map Assignment.entry) with
      | .ok table => .ok { s with table }
      | .error e => .error ⟨.ofStore e, ⟨0, length⟩⟩

/-- Scans a line and lets it take effect, with the warnings that the line gives. Places are relative
to the line. -/
def applyLine (s : Styling) (line : List Char) : Except ParseError (Styling × List Diagnostic) := do
  let scanned ← scanLine line
  let next ← s.commit (byteLength line) scanned
  .ok (next, scanned.diagnostics)

end Styling

end TreeDiagram
