import TreeDiagram.Report
import TreeDiagram.Proofs.Location
/-!
# Places in reports

Spans are ranges of bytes, but reports count characters. So a report shows the place of the
character whose number is the first byte of the span. This is the right place exactly if every
character in front of the span takes one byte, and a place is shown exactly if the span would fit
into the text when counted in characters.
-/

namespace TreeDiagram

namespace Location

/-- Of two places the first one comes before the second one. -/
def Before (here later : Location) : Prop :=
  here.line < later.line ∨ here.line = later.line ∧ here.column < later.column

theorem Before.trans {a b c : Location} (h : a.Before b) (h' : b.Before c) : a.Before c := by
  unfold Before at *
  omega

theorem Before.ne {a b : Location} (h : a.Before b) : a ≠ b := by
  rintro rfl
  unfold Before at h
  omega

theorem before_advance {n : Nat} {cs : List Char} (inside : n < cs.length) (here : Location) :
    here.Before (advance (n + 1) here cs) := by
  induction cs generalizing n here with
  | nil => exact absurd inside (Nat.not_lt_zero n)
  | cons c behind ih =>
    -- one character further is either the start of the next line or the next column
    have further (next : Location) (step : here.Before next) :
        here.Before (advance n next behind) := by
      cases n with
      | zero => simpa [advance] using step
      | succ n => exact step.trans (ih (Nat.lt_of_succ_lt_succ inside) next)
    rw [advance]
    split
    · exact further _ (.inl (Nat.lt_succ_self _))
    · exact further _ (.inr ⟨rfl, Nat.lt_succ_self _⟩)

/-- Different characters stand at different places. -/
theorem advance_inj {i j : Nat} {cs : List Char} (inside : i ≤ cs.length) (inside' : j ≤ cs.length)
    {here : Location} (same : advance i here cs = advance j here cs) : i = j := by
  induction cs generalizing i j here with
  | nil => exact (Nat.le_zero.mp inside).trans (Nat.le_zero.mp inside').symm
  | cons c behind ih =>
    cases i with
    | zero =>
      cases j with
      | zero => rfl
      | succ j => exact absurd same (before_advance inside' here).ne
    | succ i =>
      cases j with
      | zero => exact absurd same.symm (before_advance inside here).ne
      | succ j =>
        simp only [advance] at same
        split at same
        · rw [ih (Nat.le_of_succ_le_succ inside) (Nat.le_of_succ_le_succ inside') same]
        · rw [ih (Nat.le_of_succ_le_succ inside) (Nat.le_of_succ_le_succ inside') same]

/-- The characters in front of a byte of a text at which a character starts or the text ends. -/
structure InFront (source : List Char) (offset : Nat) (before : List Char) : Prop where
  begins : before <+: source
  length : byteLength before = offset

end Location

theorem length_le_byteLength (cs : List Char) : cs.length ≤ byteLength cs := by
  induction cs with
  | nil => rfl
  | cons c cs ih =>
    have positive := c.utf8Size_pos
    rw [List.length_cons, byteLength_cons]
    omega

/-- A text has as many characters as bytes if and only if each takes one byte. -/
theorem byteLength_eq_length_iff {cs : List Char} :
    byteLength cs = cs.length ↔ ∀ c ∈ cs, c.utf8Size = 1 := by
  constructor
  · intro same
    induction cs with
    | nil => simp
    | cons c cs ih =>
      have positive := c.utf8Size_pos
      have rest := length_le_byteLength cs
      rw [byteLength_cons, List.length_cons] at same
      refine List.forall_mem_cons.mpr ⟨by omega, ih (by omega)⟩
  · exact byteLength_eq_length

namespace Span.Cuts

variable {source : String} {span : Span} {text : List Char}

/-- A span within a text is not cut down. -/
theorem cut_eq (h : span.Cuts source text) : Location.cut source.toList span = span := by
  have ordered := h.ordered
  have inside := h.inside
  rw [Location.cut, byteLength_toList, Nat.min_eq_left (ordered.trans inside),
    Nat.min_eq_left inside, Nat.max_eq_right ordered]

/-- Characters stand in front of the first byte of a span. -/
theorem exists_inFront (h : span.Cuts source text) :
    ∃ before, Location.InFront source.toList span.start before := by
  obtain ⟨front, back, whole, place⟩ := String.Pos.Raw.isValid_iff_exists_append.mp h.startsAtChar
  refine ⟨front.toList, ⟨back.toList, ?_⟩, ?_⟩
  · rw [whole, String.toList_append]
  · have bytes := congrArg String.Pos.Raw.byteIdx place
    rw [byteLength_toList]
    exact bytes.symm

/-- The place of a span in a text is that of the character whose number is its first byte. -/
theorem ofSpan?_eq (h : span.Cuts source text) (notEmpty : source ≠ "") :
    Location.ofSpan? source.toList span =
      if span.start ≤ source.toList.length ∧ span.stop ≤ source.toList.length + 1 then
        some (Location.ofOffset source.toList span.start)
      else none := by
  have ordered := h.ordered
  have someText : source.toList ≠ [] := by
    intro none_
    exact notEmpty (String.toList_eq_nil_iff.mp none_)
  rw [Location.ofSpan?, h.cut_eq]
  simp only [List.isEmpty_iff, someText, false_or]
  by_cases fits : span.start ≤ source.toList.length ∧ span.stop ≤ source.toList.length + 1
  · rw [if_pos fits, if_neg (by omega)]
  · rw [if_neg fits, if_pos (by omega)]

/-- It is the place of the character that starts there exactly if every character in front takes one
byte and the span fits. -/
theorem ofSpan?_eq_some_iff (h : span.Cuts source text) (notEmpty : source ≠ "")
    {before : List Char} (inFront : Location.InFront source.toList span.start before) :
    Location.ofSpan? source.toList span =
        some (Location.ofOffset source.toList before.length) ↔
      (∀ c ∈ before, c.utf8Size = 1) ∧ span.stop ≤ source.toList.length + 1 := by
  have short := inFront.begins.length_le
  rw [h.ofSpan?_eq notEmpty, ← byteLength_eq_length_iff, inFront.length]
  constructor
  · intro shown
    split at shown
    · next fits =>
      exact ⟨Location.advance_inj fits.1 short (Option.some.inj shown), fits.2⟩
    · cases shown
  · rintro ⟨same, fits⟩
    rw [same, if_pos ⟨short, fits⟩]

end Span.Cuts

/-- The place that a report of a span shows, by where the span is and where it seems to be. -/
structure Span.ShownAt (span : Span) (source : String) (shown : Option Location) : Prop where
  /-- The number of the character that is shown is that of the first byte of the span. -/
  counted : shown =
    if span.start ≤ source.toList.length ∧ span.stop ≤ source.toList.length + 1 then
      some (Location.ofOffset source.toList span.start)
    else none
  /-- When the place of the character that starts at this byte, or of the end, is shown. -/
  right : ∃ before, Location.InFront source.toList span.start before ∧
    (shown = some (Location.ofOffset source.toList before.length) ↔
      (∀ c ∈ before, c.utf8Size = 1) ∧ span.stop ≤ source.toList.length + 1)
  /-- In a text of one byte for each character this is always so. -/
  plain : (∀ c ∈ source.toList, c.utf8Size = 1) →
    ∃ before, Location.InFront source.toList span.start before ∧
      shown = some (Location.ofOffset source.toList before.length)

theorem Span.Cuts.shownAt {source : String} {span : Span} {text : List Char}
    (h : span.Cuts source text) (notEmpty : source ≠ "") :
    span.ShownAt source (Location.ofSpan? source.toList span) := by
  obtain ⟨before, inFront⟩ := h.exists_inFront
  have right := h.ofSpan?_eq_some_iff notEmpty inFront
  refine ⟨h.ofSpan?_eq notEmpty, ⟨before, inFront, right⟩, fun plain => ?_⟩
  refine ⟨before, inFront, right.mpr ⟨fun c member => plain c (inFront.begins.mem member), ?_⟩⟩
  rw [← byteLength_eq_length plain, byteLength_toList]
  exact h.inside.trans (Nat.le_succ _)

theorem ParseError.PointsInto.exists_cuts {source : String} {e : ParseError}
    (h : e.PointsInto source) : ∃ text, e.span.Cuts source text := by
  cases h with
  | piece cut => exact ⟨_, cut⟩
  | full _ cut => exact ⟨_, cut⟩
  | unmarked _ _ cut => exact ⟨_, cut⟩
  | silent _ cut => exact ⟨_, cut⟩

namespace Session

variable {K : Type} [Scalar K]

/-- The place that is shown for an error or a warning of an input that is not empty is counted in
characters where the span counts bytes. -/
theorem reports_count_characters {source : String} (notEmpty : source ≠ "")
    (factors : LayoutFactors K) (sheet : Stylesheet) (capacity : Nat) :
    (∀ e, parse source factors sheet capacity = .error (.parse e) →
        e.span.ShownAt source (Report.ofError source e).location) ∧
      ∀ s, parse source factors sheet capacity = .ok s → ∀ d ∈ s.diagnostics,
        d.span.ShownAt source (Report.ofDiagnostic source d).location := by
  constructor
  · intro e failed
    obtain ⟨text, cut⟩ :=
      (Document.pointsInto_of_read (read_of_parse_error failed)).exists_cuts
    exact cut.shownAt notEmpty
  · intro s parsed d member
    obtain ⟨readings, lines, warned⟩ := Document.exists_readings_of_read (parse_eq_ok parsed).1
    rw [show s.diagnostics = _ from warned] at member
    obtain ⟨-, r, -, -, a, -, -, written, after, cut, -⟩ :=
      (Reading.warnings_located lines).1 d member
    exact cut.shownAt notEmpty

/-- An input of three letters, each of two bytes. -/
def accented : String :=
  "\u00e9\u00e9\u00e9"

theorem parse_accented :
    parse (K := Rat) accented = .error (.parse ⟨.startTokenMissing, ⟨0, 6⟩⟩) := by
  have lines : significantLines accented.toList = [⟨0, accented.toList⟩] := by decide +kernel
  have unmarked : afterStartMarker? accented.toList = none := by decide +kernel
  have start : Document.readStart (K := Rat) (initialStyling {} maxNodeId)
      ⟨0, accented.toList⟩ = .error ⟨.startTokenMissing, ⟨0, 6⟩⟩ := by
    simp only [Document.readStart, unmarked]
    rfl
  simp only [parse, Document.read, lines, Document.readLines, start, bind, Except.bind]

/-- The report of an error behind a letter of two bytes shows the next column, and that of an error
at such letters alone shows no place. -/
theorem exists_misplaced :
    (∃ e before, parse (K := Rat) strayed = .error (.parse e) ∧
        Location.InFront strayed.toList e.span.start before ∧
        Location.ofOffset strayed.toList before.length = ⟨2, 13⟩ ∧
        (Report.ofError strayed e).location = some ⟨2, 14⟩) ∧
      ∃ e, parse (K := Rat) accented = .error (.parse e) ∧
        (Report.ofError accented e).location = none := by
  constructor
  · refine ⟨_, strayed.toList.take 16, parse_strayed, ?_, ?_, ?_⟩
    · exact ⟨List.take_prefix _ _, by decide +kernel⟩
    · decide +kernel
    · decide +kernel
  · refine ⟨_, parse_accented, ?_⟩
    decide +kernel

theorem reports_count_characters_strayed : strayed ≠ "" ∧
    parse (K := Rat) strayed = .error (.parse ⟨.lexical ';', ⟨17, 18⟩⟩) ∧
    Span.ShownAt ⟨17, 18⟩ strayed (Report.ofError strayed ⟨.lexical ';', ⟨17, 18⟩⟩).location := by
  have notEmpty : strayed ≠ "" := by decide
  exact ⟨notEmpty, parse_strayed,
    (reports_count_characters notEmpty {} {} maxNodeId).1 _ parse_strayed⟩

end Session

end TreeDiagram
