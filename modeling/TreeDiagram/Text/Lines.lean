import TreeDiagram.Text.Letter
import TreeDiagram.Text.Span
/-!
The lines of an input that say something.

Blank lines and comments are left out. What remains of a line is freed of the blanks in front of it,
and of blanks, slashes, semicolons and commas behind it. A line knows the byte at which its text
begins in the whole input.
-/

namespace TreeDiagram

/-- A line without what surrounds its text, and the byte where the text begins. -/
structure SourceLine where
  offset : Nat
  text : List Char
  deriving DecidableEq, Repr

/-- The lines of a text, each with the byte at which it begins. The text begins at `offset`. -/
def splitLines (offset : Nat) (cs : List Char) : List SourceLine :=
  let line := cs.takeWhile (· != '\n')
  match rest : cs.dropWhile (· != '\n') with
  | [] => [⟨offset, line⟩]
  | _ :: behind =>
    have _ : behind.length < cs.length := by
      have le := (List.dropWhile_suffix (l := cs) (· != '\n')).length_le
      simp only [rest, List.length_cons] at le
      omega
    ⟨offset, line⟩ :: splitLines (offset + byteLength line + 1) behind
termination_by cs.length

/-- The characters that are dropped at the end of a line. -/
def isTrailing (c : Char) : Bool :=
  isBlank c || c == '/' || c == ';' || c == ','

/-- A text without the characters of a class at its end. -/
def dropTrailing (p : Char → Bool) (cs : List Char) : List Char :=
  (cs.reverse.dropWhile p).reverse

namespace SourceLine

/-- The line without the blanks in front of it. -/
def trimStart (line : SourceLine) : SourceLine :=
  ⟨line.offset + byteLength (line.text.takeWhile isBlank), line.text.dropWhile isBlank⟩

/-- The line without what is dropped behind it. -/
def trimEnd (line : SourceLine) : SourceLine :=
  { line with text := dropTrailing isTrailing line.text }

/-- Whether a line without blanks in front of it is blank or a comment. -/
def isSilent (line : SourceLine) : Bool :=
  match line.text with
  | [] => true
  | c :: _ => c == '/' || c == '#'

end SourceLine

/-- The lines of an input that say something. -/
def significantLines (source : List Char) : List SourceLine :=
  (((splitLines 0 source).map SourceLine.trimStart).filter fun line => !line.isSilent).map
    SourceLine.trimEnd

end TreeDiagram
