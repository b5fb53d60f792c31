import TreeDiagram.ParseError
import TreeDiagram.Text.Bytes
/-!
Reading a text by byte positions.

A reader that goes on byte by byte has to cut its pieces out of the text, and to say where they
stand. It does both at spans that fit in the text only: at any other one it breaks down, without an
answer.
-/

namespace TreeDiagram

namespace Bytewise

/-- What a reading ends with: the text is rejected, or the reader breaks down at a span that does
not fit in the text. -/
inductive Halt where
  | rejected (e : ParseError)
  | misplaced (s : Span)
  deriving DecidableEq, Repr

/-- The same end of a reading in a text in which `base` bytes come first. -/
def Halt.shift (base : Nat) : Halt → Halt
  | rejected e => rejected (e.shift base)
  | misplaced s => misplaced (s.shift base)

/-- A span to cut the text at, or to say where something stands. -/
def mark (text : String) (s : Span) : Except Halt Span :=
  if s.FitsIn text then .ok s else .error (.misplaced s)

/-- The piece of a text in a span. -/
def slice (text : String) (s : Span) : Except Halt String :=
  (mark text s).map fun s => s.piece text

/-- Rejects a text for something that stands at a span. -/
def reject {α : Type} (text : String) (cause : ParseError.Cause) (s : Span) : Except Halt α := do
  let s ← mark text s
  .error (.rejected ⟨cause, s⟩)

/-- The first position from one on where no blank is. -/
def skipBlanks (text : String) (pos : Nat) : Nat :=
  runEnd isBlank text pos

/-- The position behind a character of ASCII, if that comes next. -/
def eat? (x : Char) (text : String) (pos : Nat) : Option Nat :=
  if peek? text pos = some x then some (pos + 1) else none

/-- The character that begins at a position, if the text goes on there. -/
def charAt? (text : String) (pos : Nat) : Except Halt (Option Char) := do
  let rest ← slice text ⟨min pos text.utf8ByteSize, text.utf8ByteSize⟩
  .ok rest.toList.head?

end Bytewise

end TreeDiagram
