import TreeDiagram.Bytewise.Basic
import TreeDiagram.Property.Line
/-!
Property lines read byte by byte.

The reader knows the line and a byte position in it, and nothing of the characters around. It goes
on over runs of bytes: those of names, numbers and quoted texts consist of characters of one byte,
those of texts without quotes may take in any byte of a longer character.
-/

namespace TreeDiagram

namespace Bytewise

/-- Rejects a line in which something else is due at a position. -/
def unexpected {α : Type} (due : LineItem) (text : String) (pos : Nat) : Except Halt α := do
  match ← charAt? text pos with
  | none => reject text (.malformed (.unexpectedInLine none due)) ⟨pos, pos⟩
  | some x => reject text (.malformed (.unexpectedInLine (some x) due)) ⟨pos, pos + x.utf8Size⟩

/-- The longest run of bytes of a class, which must not be too long. -/
def takeRun (p : Char → Bool) (text : String) (pos : Nat) : Except Halt Span :=
  let stop := runEnd p text pos
  if maxTokenLength < stop - pos then
    reject text (.tokenTooLong (stop - pos) maxTokenLength) ⟨pos, stop⟩
  else mark text ⟨pos, stop⟩

/-- Whether the mark of a hexadecimal numeral begins at a position. -/
def marksHexadecimal (text : String) (pos : Nat) : Bool :=
  peek? text pos = some '0' && (peek? text (pos + 1) = some 'x' || peek? text (pos + 1) = some 'X')

/-- The digits of a numeral, of which a mark may stand in front. -/
def takeDigits (text : String) (start : Nat) : Except Halt Span :=
  if marksHexadecimal text start then takeRun isHexDigit text (start + 2)
  else takeRun isDigit text start

/-- A numeral, which must not be too long with its mark. -/
def scanNumber (text : String) (start : Nat) : Except Halt (Span × Nat) := do
  let digits ← takeDigits text start
  if digits.start = digits.stop then
    unexpected .number text digits.stop
  else if maxTokenLength < digits.stop - start then
    reject text (.tokenTooLong (digits.stop - start) maxTokenLength) ⟨start, digits.stop⟩
  else do
    let whole ← mark text ⟨start, digits.stop⟩
    .ok (whole, digits.stop)

/-- A text in quotes, or a run up to the next delimiter. The span leaves the quotes out. -/
def scanText (text : String) (start : Nat) : Except Halt (Span × Nat) :=
  match eat? '"' text start with
  | some opened => do
    let run ← takeRun Line.isQuotable text opened
    match eat? '"' text run.stop with
    | some next => .ok (run, next)
    | none => reject text (.malformed .unterminatedQuote) ⟨opened - 1, run.stop⟩
  | none => do
    let run ← takeRun Line.isBare text start
    if run.start = run.stop then unexpected .value text run.stop else .ok (run, run.stop)

/-- The raw value that a rule asks for, and the position behind it. -/
def scanValue : Rule → String → Nat → Except Halt (Span × Nat)
  | .range _ _ => scanNumber
  | .length _ _ => scanText

/-- A pair of a property and its value, and the position behind it. -/
def scanPair (text : String) (start : Nat) : Except Halt (Assignment × Nat) := do
  let run ← takeRun isAlphanumeric text start
  if run.start = run.stop then
    unexpected .propertyName text run.stop
  else
    let name ← slice text run
    match Property.ofName? name with
    | none => reject text (.unknownProperty name) run
    | some property =>
      let sign := skipBlanks text run.stop
      match eat? '=' text sign with
      | none => unexpected .equals text sign
      | some behindSign => do
        let (place, next) ← scanValue property.rule text (skipBlanks text behindSign)
        let raw ← slice text place
        match property.validate raw with
        | .error reason => reject text (.invalidPropertyValue property raw reason) place
        | .ok value => do
          let span ← mark text ⟨start, next⟩
          .ok (⟨property, value, span⟩, next)

/-- The position behind at most one separator and the blanks around it. -/
def skipSeparator (text : String) (pos : Nat) : Nat :=
  let mark := skipBlanks text pos
  match peek? text mark with
  | none => mark
  | some x => if x = ',' ∨ x = ';' then skipBlanks text (mark + 1) else mark

/-! A round of the loop over the pairs of a line goes forward. -/

theorem le_runEnd (p : Char → Bool) (text : String) (pos : Nat) : pos ≤ runEnd p text pos :=
  Nat.le_add_right _ _

theorem le_skipSeparator (text : String) (pos : Nat) : pos ≤ skipSeparator text pos := by
  have blanks := le_runEnd isBlank text pos
  unfold skipSeparator skipBlanks
  dsimp only
  split
  · exact blanks
  · split
    · have more := le_runEnd isBlank text (runEnd isBlank text pos + 1)
      omega
    · exact blanks

theorem eq_of_mark {text : String} {s s' : Span} (h : mark text s = .ok s') : s' = s := by
  unfold mark at h
  split at h
  · exact (Except.ok.inj h).symm
  · cases h

theorem reject_ne_ok {α : Type} {text : String} {cause : ParseError.Cause} {s : Span} {a : α} :
    reject text cause s ≠ .ok a := by
  intro h
  unfold reject mark at h
  split at h <;> cases h

theorem unexpected_ne_ok {α : Type} {due : LineItem} {text : String} {pos : Nat} {a : α} :
    unexpected due text pos ≠ .ok a := by
  intro h
  unfold unexpected at h
  cases found : charAt? text pos with
  | error e =>
    rw [found] at h
    cases h
  | ok x =>
    rw [found] at h
    cases x <;> exact reject_ne_ok h

theorem start_of_takeRun {p : Char → Bool} {text : String} {pos : Nat} {run : Span}
    (h : takeRun p text pos = .ok run) : run.start = pos ∧ pos ≤ run.stop := by
  unfold takeRun at h
  dsimp only at h
  split at h
  · exact absurd h reject_ne_ok
  · rw [eq_of_mark h]
    exact ⟨rfl, le_runEnd p text pos⟩

theorem le_of_takeDigits {text : String} {start : Nat} {digits : Span}
    (h : takeDigits text start = .ok digits) : start ≤ digits.stop := by
  unfold takeDigits at h
  split at h
  · have run := start_of_takeRun h
    omega
  · exact (start_of_takeRun h).2

theorem le_of_scanNumber {text : String} {start next : Nat} {place : Span}
    (h : scanNumber text start = .ok (place, next)) : start ≤ next := by
  unfold scanNumber at h
  cases taken : takeDigits text start with
  | error e => simp [taken, bind, Except.bind] at h
  | ok digits =>
    simp only [taken, bind, Except.bind] at h
    split at h
    · exact absurd h unexpected_ne_ok
    · split at h
      · exact absurd h reject_ne_ok
      · cases marked : mark text ⟨start, digits.stop⟩ with
        | error e => simp [marked] at h
        | ok whole =>
          simp only [marked] at h
          cases h
          exact le_of_takeDigits taken

theorem lt_of_eat? {x : Char} {text : String} {pos next : Nat} (h : eat? x text pos = some next) :
    pos < next := by
  unfold eat? at h
  split at h
  · cases h
    exact Nat.lt_succ_self pos
  · cases h

theorem le_of_scanText {text : String} {start next : Nat} {place : Span}
    (h : scanText text start = .ok (place, next)) : start ≤ next := by
  unfold scanText at h
  cases quote : eat? '"' text start with
  | some opened =>
    have opens := lt_of_eat? quote
    simp only [quote] at h
    cases taken : takeRun Line.isQuotable text opened with
    | error e => simp [taken, bind, Except.bind] at h
    | ok run =>
      have forward := (start_of_takeRun taken).2
      simp only [taken, bind, Except.bind] at h
      cases closes : eat? '"' text run.stop with
      | none =>
        simp only [closes] at h
        exact absurd h reject_ne_ok
      | some behind =>
        have shut := lt_of_eat? closes
        simp only [closes] at h
        cases h
        omega
  | none =>
    simp only [quote] at h
    cases taken : takeRun Line.isBare text start with
    | error e => simp [taken, bind, Except.bind] at h
    | ok run =>
      simp only [taken, bind, Except.bind] at h
      split at h
      · exact absurd h unexpected_ne_ok
      · cases h
        exact (start_of_takeRun taken).2

theorem le_of_scanValue {rule : Rule} {text : String} {start next : Nat} {place : Span}
    (h : scanValue rule text start = .ok (place, next)) : start ≤ next := by
  cases rule with
  | range => exact le_of_scanNumber h
  | length => exact le_of_scanText h

theorem lt_of_scanPair {text : String} {start next : Nat} {a : Assignment}
    (h : scanPair text start = .ok (a, next)) : start < next := by
  unfold scanPair at h
  cases taken : takeRun isAlphanumeric text start with
  | error e => simp [taken, bind, Except.bind] at h
  | ok run =>
    obtain ⟨begins, forward⟩ := start_of_takeRun taken
    simp only [taken, bind, Except.bind] at h
    split at h
    · exact absurd h unexpected_ne_ok
    · next some_ =>
      cases cut : slice text run with
      | error e => simp [cut] at h
      | ok name =>
        simp only [cut] at h
        split at h
        · exact absurd h reject_ne_ok
        · next property named =>
          split at h
          · exact absurd h unexpected_ne_ok
          · next behindSign equals =>
            have blanks := le_runEnd isBlank text run.stop
            have sign := lt_of_eat? equals
            have blanks' := le_runEnd isBlank text behindSign
            cases value : scanValue property.rule text (skipBlanks text behindSign) with
            | error e => simp [value] at h
            | ok scanned =>
              have further := le_of_scanValue value
              simp only [value] at h
              cases raw : slice text scanned.1 with
              | error e => simp [raw] at h
              | ok written =>
                simp only [raw] at h
                split at h
                · exact absurd h reject_ne_ok
                · cases marked : mark text ⟨start, scanned.2⟩ with
                  | error e => simp [marked] at h
                  | ok span =>
                    simp only [marked] at h
                    cases h
                    unfold skipBlanks at sign further
                    omega

/-- The pairs from a position on up to the closing bracket, and the position behind the bracket. -/
def scanPairs (text : String) (pos : Nat) : Except Halt (List Assignment × Nat) :=
  match scanned : scanPair text (skipBlanks text pos) with
  | .error e => .error e
  | .ok (pair, next) =>
    let behind := skipSeparator text next
    match eat? ']' text behind with
    | some closed => .ok ([pair], closed)
    | none =>
      if text.utf8ByteSize ≤ behind then unexpected .rightBracket text behind
      else
        have _ : pos < behind := by
          have blanks := le_runEnd isBlank text pos
          have pair := lt_of_scanPair scanned
          have gap := le_skipSeparator text next
          unfold skipBlanks at pair
          omega
        (scanPairs text behind).map fun (pairs, closed) => (pair :: pairs, closed)
termination_by text.utf8ByteSize - pos

/-- What a line sets properties of, and the position behind it. -/
def scanScope (text : String) (pos : Nat) : Except Halt (LineScope × Nat) :=
  match peek? text pos with
  | none => unexpected .scope text pos
  | some x =>
    if isDigit x then do
      let run ← takeRun isDigit text pos
      let digits ← slice text run
      let id := Numeral.value .decimal digits.toList
      if id ≤ maxNodeId then .ok (.node id, run.stop)
      else reject text (.invalidNodeId digits) run
    else if x = '[' then .ok (.global, pos)
    else unexpected .scope text pos

/-- Checks that nothing but a separator and a comment follows the closing bracket. -/
def scanTail (text : String) (pos : Nat) : Except Halt Unit :=
  let behind := skipSeparator text pos
  match peek? text behind with
  | none => .ok ()
  | some x => if x = '/' ∨ x = '#' then .ok () else unexpected .lineEnd text behind

/-- The pairs of a line behind its scope. A node number may stand alone. -/
def scanBody (scope : LineScope) (text : String) (pos : Nat) : Except Halt (List Assignment) :=
  let bracket := skipBlanks text pos
  if scope ≠ .global ∧ text.utf8ByteSize ≤ bracket then .ok []
  else
    match eat? '[' text bracket with
    | none => unexpected .leftBracket text bracket
    | some opened => do
      let (pairs, closed) ← scanPairs text opened
      scanTail text closed
      .ok pairs

/-- Scans and validates a line. Places are relative to the line. -/
def scanLine (text : String) : Except Halt ScannedLine := do
  let (scope, next) ← scanScope text (skipBlanks text 0)
  let pairs ← scanBody scope text next
  .ok (ScannedLine.ofPairs scope pairs)

end Bytewise

end TreeDiagram
