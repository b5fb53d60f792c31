import TreeDiagram.Decimal.Binary
/-!
Floating point numbers written with a fixed number of decimal places.

The exact value is rounded to the nearest multiple of the last place, a tie to the even one. No
exponent is ever written. The sign of zero and of numbers that round to zero is kept.
-/

namespace TreeDiagram.Decimal

/-- The digits of `n`, filled up with leading zeros to at least `width` characters. -/
def padded (width n : Nat) : List Char :=
  let digits := Nat.toDigits 10 n
  List.replicate (width - digits.length) '0' ++ digits

/-- The number `n / 10 ^ places` with all its places written out. -/
def placed (places n : Nat) : List Char :=
  let digits := padded (places + 1) n
  let whole := digits.take (digits.length - places)
  if places = 0 then whole else whole ++ '.' :: digits.drop (digits.length - places)

/-- The text of a sign. -/
def signText (negative : Bool) : String :=
  if negative then "-" else ""

/-- The text of an infinite number. -/
def infiniteText (negative : Bool) : String :=
  signText negative ++ "inf"

/-- The text of an undefined number. -/
def undefinedText : String := "NaN"

/-- A number with exactly `places` decimals. -/
def fixed (places : Nat) (x : Float) : String :=
  match Binary.ofFloat x with
  | .finite negative units scale =>
    signText negative ++ String.ofList (placed places (Binary.scaled places units scale))
  | .infinite negative => infiniteText negative
  | .undefined => undefinedText

end TreeDiagram.Decimal
