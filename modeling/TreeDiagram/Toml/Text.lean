import TreeDiagram.Text.Numeral
/-!
The texts of a TOML document: blanks and comments, strings in their four forms.

A reader takes what it reads off the front of the text and gives the rest. Where a text is not
well formed, some reader stops in front of the offence and the next one refuses it.
-/

namespace TreeDiagram.Toml

/-- Takes something off the front of a text. -/
abbrev Reader (α : Type) := List Char → Option (α × List Char)

/-- Reads as often as it succeeds, at most a given number of times. -/
def repeated {α : Type} (read : Reader α) : Nat → List Char → List α × List Char
  | 0, cs => ([], cs)
  | times + 1, cs =>
    match read cs with
    | none => ([], cs)
    | some (a, rest) =>
      let more := repeated read times rest
      (a :: more.1, more.2)

/-- Reads as often as it succeeds. Every reading takes at least one character. -/
def many {α : Type} (read : Reader α) (cs : List Char) : List α × List Char :=
  repeated read cs.length cs

/-- The text behind a given beginning. -/
def after? : List Char → List Char → Option (List Char)
  | [], cs => some cs
  | _ :: _, [] => none
  | x :: xs, c :: cs => if x = c then after? xs cs else none

/-- A blank within a line. -/
def isGap (c : Char) : Bool :=
  c == ' ' || c == '\t'

/-- The text behind the blanks within a line. -/
def skipGap (cs : List Char) : List Char :=
  cs.dropWhile isGap

/-- A character that comments and strings may hold as it is: all but control characters. -/
def isPlain (c : Char) : Bool :=
  c == '\t' || decide (' ' ≤ c) && c != '\x7f'

/-- The text behind an end of line. -/
def newline? : List Char → Option (List Char)
  | '\n' :: rest => some rest
  | '\r' :: '\n' :: rest => some rest
  | _ => none

/-- The text behind a comment, if there is one. -/
def skipComment : List Char → List Char
  | '#' :: rest => rest.dropWhile isPlain
  | cs => cs

/-- The text behind a line of which only blanks and a comment are left. -/
def lineEnd? (cs : List Char) : Option (List Char) :=
  let rest := skipComment (skipGap cs)
  if rest.isEmpty then some [] else newline? rest

/-- Blanks and an end of line, perhaps with a comment in front of it. -/
def breakLine : Reader Unit := fun cs =>
  (newline? (skipComment (skipGap cs))).map fun rest => ((), rest)

/-- The text behind blanks, comments and ends of line. -/
def skipBreaks (cs : List Char) : List Char :=
  skipGap (many breakLine cs).2

/-- The character with a given number, if there is one. -/
def scalar? (n : Nat) : Option Char :=
  if n < 0xd800 ∨ 0xdfff < n ∧ n < 0x110000 then some (Char.ofNat n) else none

/-- A character given by a fixed number of hexadecimal digits. -/
def codePoint (digits : Nat) : Reader Char := fun cs =>
  let code := cs.take digits
  if code.length = digits && code.all isHexDigit then
    (scalar? (Numeral.value .hexadecimal code)).map fun c => (c, cs.drop digits)
  else none

/-- What follows a backslash. -/
def escape : Reader Char
  | 'b' :: rest => some ('\x08', rest)
  | 't' :: rest => some ('\t', rest)
  | 'n' :: rest => some ('\n', rest)
  | 'f' :: rest => some ('\x0c', rest)
  | 'r' :: rest => some ('\r', rest)
  | '"' :: rest => some ('"', rest)
  | '\\' :: rest => some ('\\', rest)
  | 'u' :: rest => codePoint 4 rest
  | 'U' :: rest => codePoint 8 rest
  | _ => none

/-- A character of a string on one line that knows escapes. -/
def basicChar : Reader (List Char)
  | '\\' :: rest => (escape rest).map fun (c, rest) => ([c], rest)
  | c :: rest => if isPlain c && c != '"' then some ([c], rest) else none
  | [] => none

/-- Blanks and ends of line behind a backslash at the end of a line. -/
def continuation (cs : List Char) : Option (List Char) :=
  (newline? (skipGap cs)).map fun rest =>
    skipGap (many (fun cs => (newline? (skipGap cs)).map fun rest => ((), rest)) rest).2

/-- One or two quotes that do not end a string on several lines. -/
def innerQuotes (quote : Char) : Reader (List Char)
  | x :: y :: z :: rest =>
    if x ≠ quote then none
    else if y ≠ quote then some ([quote], y :: z :: rest)
    else if z ≠ quote then some ([quote, quote], z :: rest)
    else none
  | [x, y] => if x = quote ∧ y ≠ quote then some ([quote], [y]) else none
  | _ => none

/-- A piece of a string on several lines that knows escapes. Ends of line are all read alike. -/
def basicPiece : Reader (List Char)
  | '\\' :: rest =>
    match continuation rest with
    | some rest => some ([], rest)
    | none => (escape rest).map fun (c, rest) => ([c], rest)
  | '"' :: rest => innerQuotes '"' ('"' :: rest)
  | c :: rest =>
    match newline? (c :: rest) with
    | some rest => some (['\n'], rest)
    | none => if isPlain c then some ([c], rest) else none
  | [] => none

/-- A character of a string on one line without escapes. -/
def literalChar : Reader (List Char)
  | c :: rest => if isPlain c && c != '\x27' then some ([c], rest) else none
  | [] => none

/-- A piece of a string on several lines without escapes. -/
def literalPiece : Reader (List Char)
  | '\x27' :: rest => innerQuotes '\x27' ('\x27' :: rest)
  | c :: rest =>
    match newline? (c :: rest) with
    | some rest => some (['\n'], rest)
    | none => if isPlain c then some ([c], rest) else none
  | [] => none

/-- A string on one line behind its opening quote. -/
def singleLine (quote : Char) (char : Reader (List Char)) : Reader String := fun cs =>
  let content := many char cs
  (after? [quote] content.2).map fun rest => (String.ofList content.1.flatten, rest)

/-- A string on several lines behind its opening quotes. An end of line right there is not part of
it; up to two quotes right in front of the closing ones are. -/
def multiLine (quote : Char) (piece : Reader (List Char)) : Reader String := fun cs =>
  let content := many piece ((newline? cs).getD cs)
  let closing := List.replicate 3 quote
  let ends := [2, 1, 0].findSome? fun more =>
    (after? (List.replicate more quote ++ closing) content.2).map fun rest => (more, rest)
  ends.map fun (more, rest) =>
    (String.ofList (content.1.flatten ++ List.replicate more quote), rest)

/-- A string on one line. -/
def shortString : Reader String
  | '"' :: rest => singleLine '"' basicChar rest
  | '\x27' :: rest => singleLine '\x27' literalChar rest
  | _ => none

/-- A string. -/
def string : Reader String
  | '"' :: '"' :: '"' :: rest => multiLine '"' basicPiece rest
  | '\x27' :: '\x27' :: '\x27' :: rest => multiLine '\x27' literalPiece rest
  | cs => shortString cs

end TreeDiagram.Toml
