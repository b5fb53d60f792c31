import TreeDiagram.Decimal.Fixed
/-!
The shortest decimal that reads back as the same floating point number.

A floating point number stands for the interval of reals that round to it; the two ends belong to
the interval when the number has even units. Decimal grids are tried from the leading digit
downwards, and the first grid with a point in the interval gives the digits: the nearer of the
value's two neighbours on it, the upper one on a tie. The digits are written positionally, whatever
their number.
-/

namespace TreeDiagram.Decimal

/-- The reals that round to a floating point number, over one denominator. -/
structure Interval where
  low : Nat
  value : Nat
  high : Nat
  den : Nat
  closed : Bool
  deriving Repr

namespace Interval

/-- The interval of `units * 2 ^ scale`. Below a power of two the neighbour is only half as far
away, except at the smallest scale. -/
def ofFinite (units : Nat) (scale : Int) : Interval :=
  let (num, den) := Binary.ratio 1 (scale - 2)
  let below := if units = Nat.pow 2 52 && decide (-1074 < scale) then 1 else 2
  { low := (4 * units - below) * num
    value := 4 * units * num
    high := (4 * units + 2) * num
    den := den
    closed := units % 2 = 0 }

/-- The interval with all its ends multiplied by `10 ^ (-grid)`, so that the grid's points are the
whole multiples of the denominator. -/
def onGrid (i : Interval) (grid : Int) : Interval :=
  if 0 ≤ grid then { i with den := i.den * Nat.pow 10 grid.toNat }
  else
    let factor := Nat.pow 10 (-grid).toNat
    { i with low := i.low * factor, value := i.value * factor, high := i.high * factor }

/-- Whether the whole number `n` lies in the interval. -/
def contains (i : Interval) (n : Nat) : Bool :=
  let point := n * i.den
  if i.closed then decide (i.low ≤ point) && decide (point ≤ i.high)
  else decide (i.low < point) && decide (point < i.high)

/-- The whole number of the interval that is nearest to its value, among the value's two
neighbours. -/
def nearest? (i : Interval) : Option Nat :=
  let below := i.value / i.den
  let above := below + 1
  match i.contains below, i.contains above with
  | true, true =>
    if i.value - below * i.den < above * i.den - i.value then some below else some above
  | true, false => some below
  | false, true => some above
  | false, false => none

end Interval

/-- The power of ten of the leading digit of `num / den`. -/
def leadingPlace (num den : Nat) : Int :=
  if den ≤ num then ((Nat.toDigits 10 (num / den)).length : Int) - 1
  else -((Nat.toDigits 10 ((den + num - 1) / num - 1)).length : Int)

/-- The fewest digits, as a multiple of a power of ten, that stand for `units * 2 ^ scale`. -/
def shortestDigits (units : Nat) (scale : Int) : Nat × Int :=
  let interval := Interval.ofFinite units scale
  let top := leadingPlace interval.value interval.den
  let grids := (List.range 18).map fun k : Nat => top - k
  match grids.findSome? fun grid => (interval.onGrid grid).nearest?.map fun n => (n, grid) with
  | some found => found
  | none => (0, 0)

/-- The list without the characters `c` at its end. -/
def trimRight (c : Char) (cs : List Char) : List Char :=
  (cs.reverse.dropWhile (· == c)).reverse

/-- The number `digits * 10 ^ grid` written out in full, without trailing zeros after the point. -/
def positional (digits : Nat) (grid : Int) : List Char :=
  if 0 ≤ grid then Nat.toDigits 10 (digits * Nat.pow 10 grid.toNat)
  else trimRight '.' (trimRight '0' (placed (-grid).toNat digits))

/-- The shortest positional text that reads back as the same number. -/
def shortest (x : Float) : String :=
  match Binary.ofFloat x with
  | .finite negative 0 _ => signText negative ++ "0"
  | .finite negative units scale =>
    let (digits, grid) := shortestDigits units scale
    signText negative ++ String.ofList (positional digits grid)
  | .infinite negative => infiniteText negative
  | .undefined => undefinedText

end TreeDiagram.Decimal
