import TreeDiagram.Bytewise.Description
import TreeDiagram.Bytewise.Line
import TreeDiagram.Document
/-!
Inputs read byte by byte.

Lines are cut out of the input and trimmed, the marker is cut off the first line, and each line is
then read in a text of its own. Places are moved into the whole input.
-/

namespace TreeDiagram

namespace Bytewise

/-- A line of an input, cut out of it, with the byte at which it begins. -/
structure Piece where
  offset : Nat
  text : String
  deriving DecidableEq, Repr

/-- The spans between the ends of line from a position on. -/
def lineSpans (source : String) (start : Nat) : List Span :=
  let stop := runEnd (· != '\n') source start
  if stop < source.utf8ByteSize then
    have _ : start ≤ stop := Nat.le_add_right _ _
    ⟨start, stop⟩ :: lineSpans source (stop + 1)
  else [⟨start, stop⟩]
termination_by source.utf8ByteSize - start

/-- The line at a span, trimmed, if it says something. -/
def significantLine? (source : String) (place : Span) : Except Halt (Option Piece) := do
  let raw ← slice source place
  let lead := skipBlanks raw 0
  let trimmed ← slice raw ⟨lead, raw.utf8ByteSize⟩
  match peek? trimmed 0 with
  | none => .ok none
  | some x =>
    if x = '/' ∨ x = '#' then .ok none
    else do
      let text ← slice trimmed ⟨0, lastRunStart isTrailing trimmed⟩
      .ok (some ⟨place.start + lead, text⟩)

/-- The lines of an input that say something. -/
def significantLines (source : String) : Except Halt (List Piece) := do
  let lines ← (lineSpans source 0).mapM (significantLine? source)
  .ok (lines.filterMap id)

/-- The position behind the start marker, in letters of either case, and the sign behind it. -/
def behindStartMarker? (line : String) : Except Halt (Option Nat) :=
  let marker : Span := ⟨0, startMarker.utf8ByteSize⟩
  if marker.FitsIn line ∧ (marker.piece line).toList.map lowercase = startMarker.toList then do
    let rest ← slice line ⟨marker.stop, line.utf8ByteSize⟩
    match eat? '=' rest (skipBlanks rest 0) with
    | none => .ok none
    | some behindSign => do
      let description ← slice rest ⟨behindSign, rest.utf8ByteSize⟩
      .ok (some (line.utf8ByteSize - description.utf8ByteSize))
  else .ok none

section Document

variable {K : Type} [Scalar K]

/-- Reads the tree from the first line. -/
def readStart (styling : Styling) (line : Piece) : Except Halt (Document K) := do
  match ← behindStartMarker? line.text with
  | none =>
    .error (.rejected ⟨.startTokenMissing, ⟨line.offset, line.offset + line.text.utf8ByteSize⟩⟩)
  | some start => do
    let rest ← slice line.text ⟨start, line.text.utf8ByteSize⟩
    let description ← (parse rest).mapError (Halt.shift (line.offset + start))
    .ok { description, styling }

/-- Scans a line and lets it take effect, with the warnings that the line gives. -/
def applyLine (s : Styling) (line : String) : Except Halt (Styling × List Diagnostic) := do
  let scanned ← scanLine line
  let next ← (s.commit line.utf8ByteSize scanned).mapError .rejected
  .ok (next, scanned.diagnostics)

/-- Lets a property line take effect. -/
def readProperties (d : Document K) (line : Piece) : Except Halt (Document K) := do
  let (styling, found) ← (applyLine d.styling line.text).mapError (Halt.shift line.offset)
  .ok { d with
    styling
    diagnostics := d.diagnostics ++ found.map (Diagnostic.shift line.offset)
    propertyLines := d.propertyLines + 1 }

/-- Reads an input over what was set before it. -/
def read (styling : Styling) (source : String) : Except Halt (Document K) := do
  match ← significantLines source with
  | [] => .error (.rejected ⟨.startTokenMissing, ⟨0, 0⟩⟩)
  | first :: later => do
    let d ← readStart styling first
    later.foldlM readProperties d

end Document

end Bytewise

end TreeDiagram
