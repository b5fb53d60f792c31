import TreeDiagram.Decimal.Fixed
/-!
Coordinates as they are written into a drawing: in hundredths, without decimals that say nothing.
-/

namespace TreeDiagram

/-- A number of hundredths with at most two decimals, none of them a zero at the end, and no sign
before zero. -/
def hundredthsText (negative : Bool) (n : Nat) : String :=
  let whole := Nat.toDigits 10 (n / 100)
  let decimals :=
    if n % 100 = 0 then []
    else if n % 10 = 0 then '.' :: Nat.toDigits 10 (n % 100 / 10)
    else '.' :: Decimal.padded 2 (n % 100)
  Decimal.signText (negative && n != 0) ++ String.ofList (whole ++ decimals)

/-- A coordinate, rounded to hundredths, a tie to the even one. -/
def coordinateText (x : Float) : String :=
  match Decimal.Binary.ofFloat x with
  | .finite negative units scale => hundredthsText negative (Decimal.Binary.scaled 2 units scale)
  | .infinite negative => Decimal.infiniteText negative
  | .undefined => Decimal.undefinedText

end TreeDiagram
