import TreeDiagram.Drawing.Coordinate
import TreeDiagram.Drawing.Markup
import TreeDiagram.Text.Numeral
/-!
Colors and dash patterns, and the attributes that they become.

A color is a word of four bytes: red, green, blue, and how opaque it is. A dash pattern is a row of
lengths from 1 to 255, of which the last is also its offset.
-/

namespace TreeDiagram

/-- A color as the word `0xRRGGBBAA`. -/
structure Color where
  word : Nat
  deriving DecidableEq, Repr

namespace Color

/-- The last byte: 0 is transparent, 255 opaque. -/
def alpha (c : Color) : Nat :=
  c.word % 256

/-- Red, green and blue in hexadecimal. -/
def hex (c : Color) : String :=
  let digits := Nat.toDigits 16 (c.word / 256)
  String.ofList ('#' :: (List.replicate (6 - digits.length) '0' ++ digits))

/-- How opaque the color is, as a part of one; nothing for an opaque one. -/
def opacity? (c : Color) : Option Float :=
  if c.alpha = 255 then none else some (Float.ofNat c.alpha / 255.0)

/-- The attribute that a color becomes, with a second one unless it is opaque. -/
def attributes (c : Color) (name : String) : String :=
  let opacity :=
    match c.opacity? with
    | none => ""
    | some part => attributeText (name ++ "-opacity") (coordinateText part)
  attributeText name c.hex ++ opacity

end Color

/-- A dash pattern: the lengths of its strokes and gaps. -/
structure Dash where
  lengths : List Nat
  deriving DecidableEq, Repr

namespace Dash

/-- The characters between two lengths. -/
def isSeparator (c : Char) : Bool :=
  c == ' ' || c == '\t' || c == '"' || c == ';' || c == ',' || c == '|' || c == ':'

/-- The runs of characters between separators. -/
def parts : List Char → List (List Char)
  | [] => []
  | c :: cs =>
    if isSeparator c then parts cs
    else
      match cs with
      | [] => [[c]]
      | d :: _ =>
        if isSeparator d then [c] :: parts cs
        else
          match parts cs with
          | [] => [[c]]
          | part :: others => (c :: part) :: others

/-- A text without the plus sign in front of it. -/
def withoutPlus : List Char → List Char
  | '+' :: cs => cs
  | cs => cs

/-- The value of a part that is a length: a numeral, perhaps with a plus sign behind its mark. -/
def length? (part : List Char) : Option Nat :=
  let value :=
    match Numeral.afterMark? part with
    | some digits => Numeral.ofDigits? .hexadecimal (withoutPlus digits)
    | none => Numeral.ofDigits? .decimal (withoutPlus part)
  value.filter fun n => decide (1 ≤ n) && decide (n ≤ 255)

/-- The values of the parts in front of the first that is no length. -/
def leading : List (List Char) → List Nat
  | [] => []
  | part :: others =>
    match length? part with
    | none => []
    | some n => n :: leading others

/-- The dash pattern that a text describes: at least two lengths. -/
def parse? (text : String) : Option Dash :=
  let lengths := leading (parts text.toList)
  if 2 ≤ lengths.length then some ⟨lengths⟩ else none

/-- Where the pattern begins: as far in as its last length. -/
def offset (d : Dash) : Nat :=
  d.lengths.getLast?.getD 0

/-- The attributes that a dash pattern becomes. -/
def attributes (d : Dash) : String :=
  attributeText "stroke-dasharray" (" ".intercalate (d.lengths.map fun n => toString n)) ++
    attributeText "stroke-dashoffset" (toString d.offset)

/-- The attributes for the text of a dash property. A text that is no pattern gives none. -/
def attributesOf (text : String) : String :=
  ((parse? text).map attributes).getD ""

/-- Whether the text of a dash property is there and is no pattern. -/
def isInvalid (text : String) : Bool :=
  text != "" && (parse? text).isNone

end Dash

end TreeDiagram
