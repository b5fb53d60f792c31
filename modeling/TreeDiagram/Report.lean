import TreeDiagram.ParseError
/-!
Errors and warnings as they are shown to a reader: a title, a place in the input by line and
column, what is wrong there, and what could have stood there.

The place is taken from the byte range of a problem, which is first cut down to the bytes of the
input and then counted in characters. A range that does not fit the characters has no place, and
where a range ends behind the last character nothing is said at its place.
-/

namespace TreeDiagram

/-- The line and the column of a character, both counted from one. -/
structure Location where
  line : Nat
  column : Nat
  deriving DecidableEq, Repr

/-- Whether a line ends with a character that has the given characters behind it. A carriage return
ends a line only where no line feed follows it. -/
def endsLine (c : Char) (behind : List Char) : Bool :=
  if c = '\r' then behind.head? != some '\n'
  else c == '\n' || c == '\x0b' || c == '\x0c' || c == '\u0085' || c == '\u2028' || c == '\u2029'

namespace Location

/-- The place that lies a number of characters behind another one. The end of the text belongs to
its last line. -/
def advance : Nat → Location → List Char → Location
  | 0, here, _ => here
  | _ + 1, here, [] => here
  | n + 1, here, c :: behind =>
    if endsLine c behind && !behind.isEmpty then advance n ⟨here.line + 1, 1⟩ behind
    else advance n { here with column := here.column + 1 } behind

/-- The place of the character with a given number. -/
def ofOffset (source : List Char) (offset : Nat) : Location :=
  advance offset ⟨1, 1⟩ source

/-- A range cut down to the bytes of a text. -/
def cut (source : List Char) (span : Span) : Span :=
  let bytes := byteLength source
  let start := min span.start bytes
  ⟨start, max start (min span.stop bytes)⟩

/-- The place of a byte range, if the range fits the characters: its start and its last character
must not lie behind the end of the text. -/
def ofSpan? (source : List Char) (span : Span) : Option Location :=
  let ⟨start, stop⟩ := cut source span
  let count := source.length
  if source.isEmpty ∨ count < start ∨ start < stop ∧ count < stop - 1 then none
  else some (ofOffset source start)

/-- Whether a byte range, counted in characters, ends with the text or earlier. -/
def endsInside (source : List Char) (span : Span) : Bool :=
  decide ((cut source span).stop ≤ source.length)

end Location

/-- A problem as it is shown. What is wrong and what could have stood there is said at the place. -/
structure Report where
  title : String
  location : Option Location
  /-- Whether anything is said at the place. -/
  explained : Bool
  message : String
  expected : List String
  deriving DecidableEq, Repr

namespace Report

/-- The report of an error. -/
def ofError (source : String) (e : ParseError) : Report :=
  { title := s!"Error: {e.kind.describe}: {e.message}"
    location := Location.ofSpan? source.toList e.span
    explained := Location.endsInside source.toList e.span
    message := e.message
    expected := e.cause.alternatives }

/-- The report of a warning. -/
def ofDiagnostic (source : String) (d : Diagnostic) : Report :=
  { title := s!"Warning: {d.kind.describe}"
    location := Location.ofSpan? source.toList d.span
    explained := Location.endsInside source.toList d.span
    message := d.message
    expected := [] }

/-- The place of a report in a file. -/
def locationText? (r : Report) (filename : String) : Option String :=
  r.location.map fun here => s!"{filename}:{here.line}:{here.column}"

/-- What is wrong at the place of a report, if anything is said there. -/
def messageText? (r : Report) : Option String :=
  if r.location.isSome && r.explained then some r.message else none

/-- What could have stood at the place of a report, if anything is said there and anything could. -/
def expectedText? (r : Report) : Option String :=
  if r.messageText?.isNone || r.expected.isEmpty then none
  else some ("Expected: " ++ ", ".intercalate r.expected)

/-- The lines of a report about a file. Only the title starts a line. -/
def text (r : Report) (filename : String) : String :=
  let further :=
    (r.locationText? filename).toList ++ r.messageText?.toList ++ r.expectedText?.toList
  further.foldl (fun text line => text ++ s!"  {line}\n") (r.title ++ "\n")

end Report

end TreeDiagram
