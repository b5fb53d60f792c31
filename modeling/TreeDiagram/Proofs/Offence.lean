import TreeDiagram.ParseError
import TreeDiagram.Proofs.Description.Writing
import TreeDiagram.Proofs.Text.Places
/-!
# What errors name

An error names a piece of the input: a character, a word, a name, a value, the digits of a node.
It is located where its span shows just the piece that it names.
-/

namespace TreeDiagram

/-- The piece of the input that a breach of the grammar names. -/
def Fault.Names : Fault → List Char → Prop
  | unexpectedWord found _, text => text = (found.map Token.text).getD []
  | unexpectedInLine found _, text => text = found.toList
  | unterminatedQuote, text => text.head? = some '"'
  | unbalanced, _ | misplacedLabel, _ | incomplete, _ => True

namespace ParseError

/-- The piece of the input that a cause names. A full table and a missing start marker name no
piece, but their whole line. -/
def Cause.Names : Cause → List Char → Prop
  | lexical found, text => text = [found]
  | malformed fault, text => fault.Names text
  | tokenTooLong length limit, text => byteLength text = length ∧ limit < length
  | invalidNodeId digits, text => text = digits.toList
  | unknownProperty name, text => text = name.toList
  | invalidPropertyValue _ raw _, text => text = raw.toList
  | propertySetOverflow _ _, _ | nodeTableOverflow _, _ | startTokenMissing, _ => False

/-- The span of an error shows what the error names. -/
def LocatedIn (e : ParseError) (c : Cursor) : Prop :=
  ∃ text, c.Shows e.span text ∧ e.cause.Names text

variable {e : ParseError}

theorem LocatedIn.of_passes {c d : Cursor} {run : List Char} (h : c.Passes run d)
    (located : e.LocatedIn d) : e.LocatedIn c := by
  obtain ⟨text, shows, names⟩ := located
  exact ⟨text, shows.of_passes h, names⟩

theorem LocatedIn.shift {pos : Nat} {cs : List Char} (located : e.LocatedIn ⟨pos, cs⟩)
    (base : Nat) : (e.shift base).LocatedIn ⟨pos + base, cs⟩ := by
  obtain ⟨text, shows, names⟩ := located
  exact ⟨text, shows.shift base, names⟩

/-- What one run of characters names is found behind another one. -/
theorem locatedIn_of_passes {c d : Cursor} {run : List Char} {cause : Cause} (h : c.Passes run d)
    (names : cause.Names run) : LocatedIn ⟨cause, ⟨c.pos, d.pos⟩⟩ c :=
  ⟨run, h.shows, names⟩

end ParseError

end TreeDiagram
