import TreeDiagram.Decimal.Nearest
import TreeDiagram.Toml.Text
import TreeDiagram.Toml.Value
/-!
Numbers, dates and times of a TOML document.

A decimal integer has no leading zeros; an underscore may stand between two digits. Integers fit in
64 bits with a sign. A date has to exist in the calendar.
-/

namespace TreeDiagram.Toml

/-- A digit, or an underscore with a digit behind it. -/
def nextDigit (digit : Char → Bool) : Reader Char
  | '_' :: c :: rest => if digit c then some (c, rest) else none
  | c :: rest => if digit c then some (c, rest) else none
  | [] => none

/-- A run of digits, perhaps with underscores between them. -/
def digitRun (digit : Char → Bool) : Reader (List Char)
  | c :: rest =>
    if digit c then
      let more := many (nextDigit digit) rest
      some (c :: more.1, more.2)
    else none
  | [] => none

/-- The sign in front of a number. -/
def sign : List Char → Bool × List Char
  | '-' :: rest => (true, rest)
  | '+' :: rest => (false, rest)
  | cs => (false, cs)

/-- A decimal integer without its sign. A zero is followed by no other digit. -/
def wholePart : Reader (List Char)
  | '0' :: rest => some (['0'], rest)
  | cs => digitRun isDigit cs

/-- The exponent of a number, with its mark. -/
def exponentPart : Reader Int
  | c :: rest =>
    if c = 'e' ∨ c = 'E' then
      let (negative, rest) := sign rest
      (digitRun isDigit rest).map fun (digits, rest) =>
        let n : Int := Numeral.value .decimal digits
        (if negative then -n else n, rest)
    else none
  | [] => none

/-- The decimals of a number, with their point. -/
def decimalPart : Reader (List Char)
  | '.' :: rest => digitRun isDigit rest
  | _ => none

/-- A number with an exponent or with decimals. One that is too large is refused. -/
def decimalFloat : Reader Value := fun cs => do
  let (negative, cs) := sign cs
  let (whole, cs) ← wholePart cs
  let (decimals, cs) := (decimalPart cs).getD ([], cs)
  let found := exponentPart cs
  if decimals.isEmpty && found.isNone then none
  else
    let (exponent, cs) := found.getD (0, cs)
    let digits := Numeral.value .decimal (whole ++ decimals)
    let x := Decimal.nearest negative digits (exponent - decimals.length)
    if x == 1.0 / 0.0 then none else some (.float x, cs)

/-- The special numbers. -/
def specialFloat : Reader Value := fun cs =>
  let (negative, cs) := sign cs
  match cs with
  | 'i' :: 'n' :: 'f' :: rest =>
    some (.float (if negative then -1.0 / 0.0 else 1.0 / 0.0), rest)
  | 'n' :: 'a' :: 'n' :: rest => some (.float (0.0 / 0.0), rest)
  | _ => none

/-- An integer that fits in 64 bits. -/
def bounded (n : Int) (rest : List Char) : Option (Value × List Char) :=
  if -Int.pow 2 63 ≤ n ∧ n < Int.pow 2 63 then some (.integer n, rest) else none

/-- The value of a run of digits in a given base. -/
def valueInBase (base : Nat) (digits : List Char) : Nat :=
  digits.foldl (fun n c => n * base + Numeral.digitValue c) 0

/-- An integer in a base whose mark was read. -/
def basedInteger (base : Nat) (digit : Char → Bool) : Reader Value := fun cs => do
  let (digits, rest) ← digitRun digit cs
  bounded (valueInBase base digits) rest

/-- An integer. -/
def integer : Reader Value
  | '0' :: 'x' :: rest => basedInteger 16 isHexDigit rest
  | '0' :: 'o' :: rest => basedInteger 8 (fun c => decide ('0' ≤ c) && decide (c ≤ '7')) rest
  | '0' :: 'b' :: rest => basedInteger 2 (fun c => c == '0' || c == '1') rest
  | cs => do
    let (negative, cs) := sign cs
    let (digits, rest) ← wholePart cs
    let n : Int := Numeral.value .decimal digits
    bounded (if negative then -n else n) rest

/-- A number of exactly `count` digits within bounds. -/
def fixedDigits (count min max : Nat) : Reader Nat := fun cs =>
  let digits := cs.take count
  let n := Numeral.value .decimal digits
  if digits.length = count && digits.all isDigit && decide (min ≤ n) && decide (n ≤ max) then
    some (n, cs.drop count)
  else none

/-- The number of days of a month. -/
def daysInMonth (year month : Nat) : Nat :=
  if month = 2 then
    if year % 4 = 0 ∧ (year % 100 ≠ 0 ∨ year % 400 = 0) then 29 else 28
  else if month = 4 ∨ month = 6 ∨ month = 9 ∨ month = 11 then 30
  else 31

/-- A day of the calendar. -/
def date : Reader Unit := fun cs => do
  let (year, cs) ← fixedDigits 4 0 9999 cs
  let cs ← after? ['-'] cs
  let (month, cs) ← fixedDigits 2 1 12 cs
  let cs ← after? ['-'] cs
  let (_, cs) ← fixedDigits 2 1 (daysInMonth year month) cs
  some ((), cs)

/-- The decimals of a second, if there are any. -/
def skipDecimals : List Char → List Char
  | '.' :: c :: rest => if isDigit c then rest.dropWhile isDigit else '.' :: c :: rest
  | cs => cs

/-- A time of day. -/
def time : Reader Unit := fun cs => do
  let (_, cs) ← fixedDigits 2 0 23 cs
  let cs ← after? [':'] cs
  let (_, cs) ← fixedDigits 2 0 59 cs
  let cs ← after? [':'] cs
  let (_, cs) ← fixedDigits 2 0 60 cs
  some ((), skipDecimals cs)

/-- The distance of a time from universal time. -/
def timeOffset : Reader Unit
  | 'Z' :: rest => some ((), rest)
  | 'z' :: rest => some ((), rest)
  | c :: rest =>
    if c = '+' ∨ c = '-' then do
      let (_, cs) ← fixedDigits 2 0 23 rest
      let cs ← after? [':'] cs
      let (_, cs) ← fixedDigits 2 0 59 cs
      some ((), cs)
    else none
  | [] => none

/-- The time of day behind a date, if there is one. -/
def skipTimeOfDay (cs : List Char) : List Char :=
  match cs with
  | c :: rest =>
    if c = 'T' ∨ c = 't' ∨ c = ' ' then
      match time rest with
      | some (_, rest) => ((timeOffset rest).map Prod.snd).getD rest
      | none => cs
    else cs
  | [] => cs

/-- A date, a time or both. -/
def datetime : Reader Value := fun cs =>
  match date cs with
  | some (_, rest) => some (.datetime, skipTimeOfDay rest)
  | none => (time cs).map fun (_, rest) => (.datetime, rest)

/-- Whether a text is nothing but a date, a time or both. -/
def isDatetime (cs : List Char) : Bool :=
  (datetime cs).any fun found => found.2.isEmpty

/-- A number, a date or a time. -/
def number : Reader Value := fun cs =>
  match datetime cs with
  | some found => some found
  | none =>
    match decimalFloat cs with
    | some found => some found
    | none =>
      match specialFloat cs with
      | some found => some found
      | none => integer cs

end TreeDiagram.Toml
