import TreeDiagram.Text.Span
/-!
Texts as they are stored, byte by byte.

A place in a text is a byte position. A piece of a text can be cut out only between two positions
that are between characters; other positions lie inside of a character that takes several bytes.
-/

namespace TreeDiagram

/-- The bytes that a text is stored in. -/
def bytes (text : String) : List UInt8 :=
  text.toUTF8.data.toList

/-- A byte as the character with its number. It stands for a character of the text only if it is one
of ASCII. -/
def byteChar (b : UInt8) : Char :=
  Char.ofNat b.toNat

/-- The byte at a position, if the text goes on there. -/
def peek? (text : String) (pos : Nat) : Option Char :=
  (bytes text)[pos]?.map byteChar

/-- The end of the longest run of bytes of a class that begins at a position. -/
def runEnd (p : Char → Bool) (text : String) (pos : Nat) : Nat :=
  pos + (((bytes text).drop pos).takeWhile fun b => p (byteChar b)).length

/-- Where the longest run of bytes of a class begins that the text ends with. -/
def lastRunStart (p : Char → Bool) (text : String) : Nat :=
  text.utf8ByteSize - ((bytes text).reverse.takeWhile fun b => p (byteChar b)).length

namespace Span

/-- A text can be cut at a span: its ends are in order, within the text and between characters. -/
structure FitsIn (s : Span) (text : String) : Prop where
  ordered : s.start ≤ s.stop
  inside : s.stop ≤ text.utf8ByteSize
  startsAtChar : String.Pos.Raw.IsValid text ⟨s.start⟩
  stopsAtChar : String.Pos.Raw.IsValid text ⟨s.stop⟩

instance (s : Span) (text : String) : Decidable (s.FitsIn text) :=
  decidable_of_iff (s.start ≤ s.stop ∧ s.stop ≤ text.utf8ByteSize ∧
      String.Pos.Raw.IsValid text ⟨s.start⟩ ∧ String.Pos.Raw.IsValid text ⟨s.stop⟩)
    ⟨fun ⟨ordered, inside, starts, stops⟩ => ⟨ordered, inside, starts, stops⟩,
      fun fits => ⟨fits.ordered, fits.inside, fits.startsAtChar, fits.stopsAtChar⟩⟩

/-- The piece of a text in a span that fits in it. -/
def piece (s : Span) (text : String) : String :=
  String.Pos.Raw.extract text ⟨s.start⟩ ⟨s.stop⟩

end Span

end TreeDiagram
