import TreeDiagram.Decimal.Nearest
import TreeDiagram.Text.Letter
import TreeDiagram.Text.Numeral
/-!
Floating point numbers written in decimal.

A number has digits on at least one side of its point, and may have an exponent. The infinite and
the undefined number are written in letters of either case. A sign may stand in front.
-/

namespace TreeDiagram.Decimal

/-- The digits at the start of a text, and the rest. -/
def leadingDigits (cs : List Char) : List Char × List Char :=
  (cs.takeWhile isDigit, cs.dropWhile isDigit)

/-- The sign in front of a number, and the rest. -/
def leadingSign : List Char → Bool × List Char
  | '-' :: cs => (true, cs)
  | '+' :: cs => (false, cs)
  | cs => (false, cs)

/-- The exponent that a text consists of. -/
def exponent? : List Char → Option Int
  | [] => some 0
  | c :: cs =>
    if c = 'e' ∨ c = 'E' then
      let (negative, digits) := leadingSign cs
      (Numeral.ofDigits? .decimal digits).map fun n => if negative then -(n : Int) else n
    else none

/-- A number without its sign. -/
def unsigned? (negative : Bool) (cs : List Char) : Option Float :=
  let (whole, rest) := leadingDigits cs
  let (decimals, rest) :=
    match rest with
    | '.' :: behind => leadingDigits behind
    | _ => ([], rest)
  if whole.isEmpty && decimals.isEmpty then none
  else
    (exponent? rest).map fun exponent =>
      nearest negative (Numeral.value .decimal (whole ++ decimals)) (exponent - decimals.length)

/-- The number that a text writes. -/
def read? (text : String) : Option Float :=
  let (negative, cs) := leadingSign text.toList
  let word := String.ofList (cs.map lowercase)
  if word = "inf" ∨ word = "infinity" then
    some (if negative then -1.0 / 0.0 else 1.0 / 0.0)
  else if word = "nan" then some (0.0 / 0.0)
  else unsigned? negative cs

end TreeDiagram.Decimal
