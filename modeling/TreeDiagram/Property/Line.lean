import TreeDiagram.ParseError
import TreeDiagram.Text.Cursor
/-!
Property lines.

A line sets properties of one node, `5[NodeLabel="root", FillColor=0x00ff00ff]`, or of the whole
diagram, `[FontSize=14; EdgeXIncrement=8]`. Pairs may be separated by a comma or a semicolon or by
nothing but blanks, and a comment may follow the closing bracket. A line is scanned and validated
to its end before any of its pairs counts.
-/

namespace TreeDiagram

/-- The longest name, value or node number on a property line, in bytes. -/
def maxTokenLength : Nat := 255

/-- What a line sets properties of. -/
inductive LineScope where
  | node (id : NodeId)
  | global
  deriving DecidableEq, Repr

/-- A pair of a property and its value, with its place in the line. -/
structure Assignment where
  property : Property
  value : Value
  span : Span
  deriving DecidableEq, Repr

/-- An accepted line: the pairs that count and the warnings about those that do not. -/
structure ScannedLine where
  scope : LineScope
  assignments : List Assignment
  diagnostics : List Diagnostic
  deriving DecidableEq, Repr

/-- Whether a line for a single node ignores a pair. -/
def Assignment.isIgnored (a : Assignment) : Bool :=
  a.property.scope == .extend

namespace ScannedLine

/-- The accepted line with given pairs. The whole diagram takes every property, a node only those
of base scope. -/
def ofPairs : LineScope → List Assignment → ScannedLine
  | .global, pairs => ⟨.global, pairs, []⟩
  | .node id, pairs =>
    ⟨.node id, pairs.filter fun a => !a.isIgnored,
      (pairs.filter Assignment.isIgnored).map fun a => ⟨a.span, id, a.property⟩⟩

end ScannedLine

namespace Line

/-- The error that something else is due at a place. -/
def unexpected (due : LineItem) (c : Cursor) : ParseError :=
  match c.rest with
  | [] => .ofFault (.unexpectedInLine none due) ⟨c.pos, c.pos⟩
  | x :: _ => .ofFault (.unexpectedInLine (some x) due) ⟨c.pos, c.pos + x.utf8Size⟩

/-- The longest run of characters with a property, which must not be too long. -/
def takeRun (p : Char → Bool) (c : Cursor) : Except ParseError (List Char × Cursor) :=
  let taken := c.span p
  let length := byteLength taken.1
  if maxTokenLength < length then
    .error ⟨.tokenTooLong length maxTokenLength, ⟨c.pos, taken.2.pos⟩⟩
  else .ok taken

/-- The raw text of a value, without quotes, and its place. -/
structure RawValue where
  chars : List Char
  span : Span
  deriving DecidableEq, Repr

/-- The text of a raw value. -/
def RawValue.text (raw : RawValue) : String :=
  String.ofList raw.chars

/-- The mark of a hexadecimal numeral at a place, empty where there is none, and the place behind
it. -/
def numeralMark (c : Cursor) : List Char × Cursor :=
  match c.rest with
  | '0' :: 'x' :: rest => (['0', 'x'], ⟨c.pos + 2, rest⟩)
  | '0' :: 'X' :: rest => (['0', 'X'], ⟨c.pos + 2, rest⟩)
  | _ => ([], c)

/-- The digits that follow a mark. -/
def digitAfter : List Char → Char → Bool
  | [] => isDigit
  | _ :: _ => isHexDigit

/-- A numeral, which must not be too long with its mark. -/
def scanNumber (c : Cursor) : Except ParseError (RawValue × Cursor) := do
  let (mark, behindMark) := numeralMark c
  let (digits, next) ← takeRun (digitAfter mark) behindMark
  let length := mark.length + digits.length
  if digits.isEmpty then
    .error (unexpected .number next)
  else if maxTokenLength < length then
    .error ⟨.tokenTooLong length maxTokenLength, ⟨c.pos, next.pos⟩⟩
  else
    .ok (⟨mark ++ digits, ⟨c.pos, next.pos⟩⟩, next)

/-- The characters of a quoted value. -/
def isQuotable (x : Char) : Bool :=
  isPrintable x && x != '"'

/-- The characters of a value without quotes. -/
def isBare (x : Char) : Bool :=
  decide (' ' < x) && x != ',' && x != ']' && x != '"'

/-- A text in quotes, or a run up to the next delimiter. -/
def scanText (c : Cursor) : Except ParseError (RawValue × Cursor) :=
  match c.eat? '"' with
  | some opened => do
    let (chars, closing) ← takeRun isQuotable opened
    match closing.eat? '"' with
    | some next => .ok (⟨chars, ⟨opened.pos, closing.pos⟩⟩, next)
    | none => .error (.ofFault .unterminatedQuote ⟨c.pos, closing.pos⟩)
  | none => do
    let (chars, next) ← takeRun isBare c
    if chars.isEmpty then .error (unexpected .value next)
    else .ok (⟨chars, ⟨c.pos, next.pos⟩⟩, next)

/-- The raw value that a rule asks for. -/
def scanValue : Rule → Cursor → Except ParseError (RawValue × Cursor)
  | .range _ _ => scanNumber
  | .length _ _ => scanText

/-- A pair of a property and its value. -/
def scanPair (c : Cursor) : Except ParseError (Assignment × Cursor) := do
  let (name, behindName) ← takeRun isAlphanumeric c
  if name.isEmpty then
    .error (unexpected .propertyName behindName)
  else
    match Property.ofName? (String.ofList name) with
    | none => .error ⟨.unknownProperty (String.ofList name), ⟨c.pos, behindName.pos⟩⟩
    | some property =>
      match behindName.skipBlanks.eat? '=' with
      | none => .error (unexpected .equals behindName.skipBlanks)
      | some behindEquals => do
        let (raw, next) ← scanValue property.rule behindEquals.skipBlanks
        match property.validate raw.text with
        | .error reason => .error ⟨.invalidPropertyValue property raw.text reason, raw.span⟩
        | .ok value => .ok (⟨property, value, ⟨c.pos, next.pos⟩⟩, next)

theorem takeRun_eq {p : Char → Bool} {c : Cursor} {r : List Char × Cursor}
    (h : takeRun p c = .ok r) : r = c.span p := by
  unfold takeRun at h
  dsimp only at h
  split at h
  · simp at h
  · exact (Except.ok.inj h).symm

theorem length_takeRun_le {p : Char → Bool} {c : Cursor} {r : List Char × Cursor}
    (h : takeRun p c = .ok r) : r.2.rest.length ≤ c.rest.length :=
  takeRun_eq h ▸ Cursor.length_span_le p c

theorem length_numeralMark_le (c : Cursor) :
    (numeralMark c).2.rest.length ≤ c.rest.length := by
  unfold numeralMark
  split
  · next rest eq => simp [eq]; omega
  · next rest eq => simp [eq]; omega
  · exact Nat.le_refl _

theorem length_scanNumber_le {c : Cursor} {r : RawValue × Cursor}
    (h : scanNumber c = .ok r) : r.2.rest.length ≤ c.rest.length := by
  unfold scanNumber at h
  have mark := length_numeralMark_le c
  generalize numeralMark c = marked at h mark
  cases run : takeRun (digitAfter marked.1) marked.2 with
  | error e => simp [run, bind, Except.bind] at h
  | ok digits =>
    have le := length_takeRun_le run
    simp only [run, bind, Except.bind] at h
    split at h
    · simp at h
    · split at h
      · simp at h
      · cases h
        exact Nat.le_trans le mark

theorem length_scanText_le {c : Cursor} {r : RawValue × Cursor}
    (h : scanText c = .ok r) : r.2.rest.length ≤ c.rest.length := by
  unfold scanText at h
  cases quote : c.eat? '"' with
  | some opened =>
    have opens := Cursor.length_eat?_lt quote
    simp only [quote] at h
    cases run : takeRun isQuotable opened with
    | error e => simp [run, bind, Except.bind] at h
    | ok chars =>
      have le := length_takeRun_le run
      simp only [run, bind, Except.bind] at h
      cases closes : chars.2.eat? '"' with
      | none => simp [closes] at h
      | some next =>
        have lt := Cursor.length_eat?_lt closes
        simp only [closes] at h
        cases h
        dsimp only
        omega
  | none =>
    simp only [quote] at h
    cases run : takeRun isBare c with
    | error e => simp [run, bind, Except.bind] at h
    | ok chars =>
      have le := length_takeRun_le run
      simp only [run, bind, Except.bind] at h
      split at h
      · simp at h
      · cases h
        exact le

theorem length_scanValue_le {rule : Rule} {c : Cursor} {r : RawValue × Cursor}
    (h : scanValue rule c = .ok r) : r.2.rest.length ≤ c.rest.length := by
  cases rule with
  | range => exact length_scanNumber_le h
  | length => exact length_scanText_le h

/-- A pair takes at least the first letter of its name. -/
theorem length_scanPair_lt {c : Cursor} {r : Assignment × Cursor}
    (h : scanPair c = .ok r) : r.2.rest.length < c.rest.length := by
  unfold scanPair at h
  cases run : takeRun isAlphanumeric c with
  | error e => simp [run, bind, Except.bind] at h
  | ok name =>
    simp only [run, bind, Except.bind] at h
    split at h
    · simp at h
    · next nonempty =>
      have taken := takeRun_eq run
      have shorter : name.2.rest.length < c.rest.length := by
        rw [taken]
        exact Cursor.length_span_lt (by simpa [taken] using nonempty)
      split at h
      · simp at h
      · split at h
        · simp at h
        · next behind equals =>
          have blanks := Cursor.length_skipBlanks_le name.2
          have eaten := Cursor.length_eat?_lt equals
          have blanks' := Cursor.length_skipBlanks_le behind
          split at h
          · simp at h
          · next raw value =>
            have le := length_scanValue_le value
            split at h
            · simp at h
            · cases h
              dsimp only
              omega

private theorem length_behindPair_lt {c next : Cursor} {a : Assignment}
    (h : scanPair c.skipBlanks = .ok (a, next)) :
    next.skipSeparator.rest.length < c.rest.length :=
  Nat.lt_of_le_of_lt (Cursor.length_skipSeparator_le next)
    (Nat.lt_of_lt_of_le (length_scanPair_lt h) (Cursor.length_skipBlanks_le c))

/-- The pairs up to the closing bracket, as far as they can be read, and the place behind the
bracket or what stopped the reading. -/
def scanPairs (c : Cursor) : List Assignment × Except ParseError Cursor :=
  match h : scanPair c.skipBlanks with
  | .error e => ([], .error e)
  | .ok (pair, next) =>
    let behind := next.skipSeparator
    match behind.eat? ']' with
    | some closed => ([pair], .ok closed)
    | none =>
      if behind.atEnd then ([pair], .error (unexpected .rightBracket behind))
      else
        have _ : behind.rest.length < c.rest.length := length_behindPair_lt h
        let more := scanPairs behind
        (pair :: more.1, more.2)
termination_by c.rest.length

/-- What a line sets properties of, and the place behind it. -/
def scanScope (c : Cursor) : Except ParseError (LineScope × Cursor) :=
  match c.rest with
  | [] => .error (unexpected .scope c)
  | x :: _ =>
    if isDigit x then do
      let (digits, next) ← takeRun isDigit c
      let id := Numeral.value .decimal digits
      if id ≤ maxNodeId then .ok (.node id, next)
      else .error ⟨.invalidNodeId (String.ofList digits), ⟨c.pos, next.pos⟩⟩
    else if x = '[' then .ok (.global, c)
    else .error (unexpected .scope c)

/-- Checks that nothing but a separator and a comment follows the closing bracket. -/
def scanTail (c : Cursor) : Except ParseError Unit :=
  let behind := c.skipSeparator
  match behind.rest with
  | [] => .ok ()
  | x :: _ => if x = '/' ∨ x = '#' then .ok () else .error (unexpected .lineEnd behind)

/-- The pairs of a line behind its scope, as far as they can be read, and whether the line ends as
it should. A node number may stand alone. -/
def scanBody (scope : LineScope) (c : Cursor) : List Assignment × Except ParseError Unit :=
  let c := c.skipBlanks
  if scope ≠ .global ∧ c.atEnd then ([], .ok ())
  else
    match c.eat? '[' with
    | none => ([], .error (unexpected .leftBracket c))
    | some opened =>
      let (pairs, ending) := scanPairs opened
      (pairs, ending.bind scanTail)

/-- Scans a line as far as it can be read: its scope, its pairs, and whether it ends as it
should. -/
def scanAll (line : List Char) :
    Except ParseError (LineScope × List Assignment × Except ParseError Unit) :=
  (scanScope (Cursor.start line).skipBlanks).map fun (scope, c) => (scope, scanBody scope c)

end Line

/-- Scans and validates a line. Places are relative to the line. -/
def scanLine (line : List Char) : Except ParseError ScannedLine := do
  let (scope, pairs, ending) ← Line.scanAll line
  ending
  .ok (ScannedLine.ofPairs scope pairs)

/-- The properties that a line for a single node names in vain, as far as the line can be read. -/
def ignoredProperties (line : List Char) : List (NodeId × Property) :=
  match Line.scanAll line with
  | .ok (.node id, pairs, _) => (pairs.filter Assignment.isIgnored).map fun a => (id, a.property)
  | _ => []

end TreeDiagram
