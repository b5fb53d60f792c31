import TreeDiagram.Proofs.Location
import TreeDiagram.Proofs.Text.Insertion
/-!
# Inputs whose lines stand elsewhere

Where the lines of an input stand matters only for the places of its errors and warnings: if the
same lines stand elsewhere in another input, the outcome is the same but for these places, which
move with the lines.
-/

namespace TreeDiagram

/-- The same error at the place that its own is moved to. -/
def ParseError.relocate (move : Span → Span) (e : ParseError) : ParseError :=
  { e with span := move e.span }

/-- The same warning at the place that its own is moved to. -/
def Diagnostic.relocate (move : Span → Span) (d : Diagnostic) : Diagnostic :=
  { d with span := move d.span }

/-- The same document, read off moved lines, with `more` property lines. -/
def Document.relocate {K : Type} (move : Span → Span) (more : Nat) (d : Document K) : Document K :=
  { d with
    diagnostics := d.diagnostics.map (Diagnostic.relocate move)
    propertyLines := d.propertyLines + more }

/-- The same session, read off moved lines, with `more` property lines. -/
def Session.relocate {K : Type} (move : Span → Span) (more : Nat) (s : Session K) : Session K :=
  { s with document := s.document.relocate move more }

/-- The same error, met in moved lines. An error of the layout has no place. -/
def SessionError.relocate {K : Type} (move : Span → Span) : SessionError K → SessionError K
  | .parse e => .parse (e.relocate move)
  | .layout e => .layout e

/-- Two sessions that agree in all but the places of their warnings, which `move` takes from one to
the other, and in the number of property lines. -/
structure Session.Agree {K : Type} [Scalar K] (move : Span → Span) (s s' : Session K) : Prop where
  tree : s'.tree = s.tree
  layout : s'.layout = s.layout
  table : s'.table = s.table
  overrides : s'.overrides = s.overrides
  styledNodes : s'.styledNodes = s.styledNodes
  resolveLabel : ∀ label, s'.resolveLabel label = s.resolveLabel label
  diagnostics : s'.diagnostics = s.diagnostics.map (Diagnostic.relocate move)

/-- The same text stands in both lines, and `move` takes the places in the first to those in the
second. -/
structure SourceLine.MovedBy (move : Span → Span) (line line' : SourceLine) : Prop where
  text : line'.text = line.text
  moves : ∀ s : Span, s.start ≤ s.stop → s.stop ≤ byteLength line.text →
    move (s.shift line.offset) = s.shift line'.offset

theorem Span.shift_shift (s : Span) (base base' : Nat) :
    (s.shift base).shift base' = s.shift (base' + base) := by
  simp only [Span.shift, Span.mk.injEq]
  omega

theorem Cursor.Shows.ordered {c : Cursor} {s : Span} {text : List Char} (h : c.Shows s text) :
    s.start ≤ s.stop := by
  obtain ⟨before, behind, -, rfl⟩ := Cursor.shows_iff.mp h
  exact Nat.le_add_right _ _

theorem SourceLine.MovedBy.moves_shown {move : Span → Span} {line line' : SourceLine} {s : Span}
    {text : List Char} (moved : line.MovedBy move line')
    (shows : (Cursor.start line.text).Shows s text) :
    move (s.shift line.offset) = s.shift line'.offset := by
  have inside : s.stop ≤ 0 + byteLength line.text := shows.bounds.2
  exact moved.moves s shows.ordered (by omega)

/-- A line in front of the place where bytes are put into an input stays. -/
theorem SourceLine.movedBy_self {place width : Nat} {line : SourceLine}
    (inFront : line.span.stop < place) : line.MovedBy (Span.makeRoom place width) line := by
  refine ⟨rfl, ?_⟩
  intro s ordered inside
  have stays : ¬place ≤ (s.shift line.offset).start := by
    simp only [SourceLine.span] at inFront
    simp only [Span.shift]
    omega
  rw [Span.makeRoom, if_neg stays]

/-- A line behind the place where bytes are put into an input moves by them. -/
theorem SourceLine.movedBy_shift {place width : Nat} {line : SourceLine}
    (behind : place ≤ line.span.start) :
    line.MovedBy (Span.makeRoom place width) (line.shift width) := by
  refine ⟨rfl, ?_⟩
  intro s ordered inside
  have moves : place ≤ (s.shift line.offset).start := Nat.le_trans behind (Nat.le_add_left _ _)
  rw [Span.makeRoom, if_pos moves, Span.shift_shift, Nat.add_comm]
  rfl

theorem SourceLine.forall₂_movedBy_self {place width : Nat} {lines : List SourceLine}
    (inFront : ∀ line ∈ lines, line.span.stop < place) :
    List.Forall₂ (SourceLine.MovedBy (Span.makeRoom place width)) lines lines :=
  List.forall₂_same.mpr fun line member => movedBy_self (inFront line member)

theorem SourceLine.forall₂_movedBy_shift {place width : Nat} {lines : List SourceLine}
    (behind : ∀ line ∈ lines, place ≤ line.span.start) :
    List.Forall₂ (SourceLine.MovedBy (Span.makeRoom place width)) lines
      (lines.map (SourceLine.shift width)) :=
  List.forall₂_map_right_iff.mpr
    (List.forall₂_same.mpr fun line member => movedBy_shift (behind line member))

/-! ## Places within a line -/

/-- An error or a warning of a line shows a piece of it. -/
def Span.Within (s : Span) (text : List Char) : Prop :=
  ∃ shown, (Cursor.start text).Shows s shown

theorem Span.within_whole (text : List Char) : Span.Within ⟨0, byteLength text⟩ text :=
  ⟨text, Cursor.shows_iff.mpr ⟨[], [], by simp [Cursor.start], by simp [Cursor.start]⟩⟩

theorem Span.Within.bounds_shift {s : Span} (line : SourceLine) (within : s.Within line.text) :
    line.span.start ≤ (s.shift line.offset).start ∧
      (s.shift line.offset).stop ≤ line.span.stop := by
  obtain ⟨shown, shows⟩ := within
  have moved := (shows.shift line.offset).bounds
  rwa [Nat.zero_add] at moved

theorem Styling.within_of_applyLine {s : Styling} {line : List Char} {e : ParseError}
    (failed : s.applyLine line = .error e) : e.span.Within line := by
  rcases applyLine_eq_error failed with ⟨text, shows, -⟩ | ⟨error, rfl⟩
  · exact ⟨text, shows⟩
  · exact Span.within_whole line

theorem within_of_mem_diagnostics {line : List Char} {scanned : ScannedLine}
    (accepted : scanLine line = .ok scanned) : ∀ d ∈ scanned.diagnostics, d.span.Within line := by
  obtain ⟨scope, pairs, said, rfl⟩ := scanLine_eq_ok_iff.mp accepted
  intro d member
  cases scope with
  | global => cases member
  | node id =>
    rw [ScannedLine.ofPairs_node] at member
    obtain ⟨a, kept, rfl⟩ := List.mem_map.mp member
    obtain ⟨written, after, shows, -⟩ := said.shows a (List.mem_of_mem_filter kept)
    exact ⟨written, shows⟩

namespace Document

variable {K : Type} {move : Span → Span} {more : Nat}

/-- What is read off moved lines. -/
def relocated (move : Span → Span) (more : Nat) (outcome : Except ParseError (Document K)) :
    Except ParseError (Document K) :=
  (outcome.map (relocate move more)).mapError (ParseError.relocate move)

section Start

variable [Scalar K] {styling : Styling}

/-- A start line is read from its beginning, and the place of an error is moved to where it stands.
-/
theorem readStart_eq_mapError (styling : Styling) (line : SourceLine) :
    readStart (K := K) styling line =
      (readStart styling ⟨0, line.text⟩).mapError (ParseError.shift line.offset) := by
  unfold readStart
  cases afterStartMarker? line.text with
  | none =>
    simp only [Except.mapError, ParseError.shift, Span.shift, Nat.zero_add,
      Nat.add_comm (byteLength line.text)]
  | some rest =>
    dsimp only
    cases TreeDescription.parse (K := K) rest with
    | error e =>
      simp only [Except.mapError, ParseError.shift, Span.shift_shift, Nat.zero_add]
    | ok description => rfl

theorem within_of_readStart {text : List Char} {e : ParseError}
    (failed : readStart (K := K) styling ⟨0, text⟩ = .error e) : e.span.Within text := by
  unfold readStart at failed
  split at failed
  · cases failed
    simpa using Span.within_whole text
  · next rest marked =>
    dsimp only at failed marked
    split at failed
    · next inRest failed' =>
      cases failed
      obtain ⟨marker, whole⟩ := exists_marker_append marked
      obtain ⟨shown, shows, -⟩ := TreeDescription.locatedIn_of_parse failed'
      have length : byteLength text - byteLength rest = byteLength marker := by
        rw [whole, byteLength_append]
        omega
      have passed : (Cursor.start text).Passes marker ⟨0 + byteLength marker, rest⟩ :=
        ⟨whole, rfl⟩
      refine ⟨shown, ?_⟩
      rw [length, Nat.zero_add]
      exact (shows.shift _).of_passes passed
    · cases failed

/-- A start line that stands elsewhere. -/
theorem readStart_relocated {line line' : SourceLine} (moved : line.MovedBy move line') :
    readStart styling line' = relocated (K := K) move 0 (readStart styling line) := by
  rw [readStart_eq_mapError, readStart_eq_mapError styling line, moved.text]
  cases read : readStart (K := K) styling ⟨0, line.text⟩ with
  | error e =>
    obtain ⟨shown, shows⟩ := within_of_readStart read
    simp only [relocated, Except.mapError, Except.map, ParseError.relocate, ParseError.shift,
      moved.moves_shown shows]
  | ok d =>
    obtain ⟨-, tree, -, -, rfl⟩ := readStart_eq_ok read
    rfl

end Start

/-- A property line that stands elsewhere. -/
theorem readProperties_relocated {line line' : SourceLine} (moved : line.MovedBy move line')
    (d : Document K) :
    readProperties (d.relocate move more) line' = relocated move more (readProperties d line) := by
  have same : (d.relocate move more).styling = d.styling := rfl
  simp only [readProperties, same, moved.text]
  cases applied : d.styling.applyLine line.text with
  | error e =>
    obtain ⟨shown, shows⟩ := Styling.within_of_applyLine applied
    simp only [relocated, Except.mapError, Except.map, ParseError.relocate, ParseError.shift,
      moved.moves_shown shows]
  | ok result =>
    obtain ⟨scanned, accepted, committed⟩ := bind_eq_ok.mp applied
    obtain ⟨styling, -, same⟩ := bind_eq_ok.mp committed
    cases same
    have warnings : scanned.diagnostics.map (Diagnostic.shift line'.offset) =
        (scanned.diagnostics.map (Diagnostic.shift line.offset)).map
          (Diagnostic.relocate move) := by
      rw [List.map_map, List.map_inj_left]
      intro w member
      obtain ⟨shown, shows⟩ := within_of_mem_diagnostics accepted w member
      simp only [Function.comp_apply, Diagnostic.relocate, Diagnostic.shift,
        moved.moves_shown shows]
    simp only [relocated, Except.mapError, Except.map, relocate, warnings, List.map_append,
      Nat.add_right_comm]

/-- Property lines that stand elsewhere. -/
theorem foldlM_relocated {lines lines' : List SourceLine}
    (moved : List.Forall₂ (SourceLine.MovedBy move) lines lines') (d : Document K) :
    lines'.foldlM readProperties (d.relocate move more) =
      relocated move more (lines.foldlM readProperties d) := by
  induction moved generalizing d with
  | nil => rfl
  | cons first later ih =>
    rw [List.foldlM_cons, List.foldlM_cons, readProperties_relocated first]
    cases readProperties d _ with
    | error e => rfl
    | ok next => exact ih next

/-- An error in property lines lies within one of them. -/
theorem exists_line_of_foldlM {lines : List SourceLine} {d : Document K} {e : ParseError}
    (failed : lines.foldlM readProperties d = .error e) :
    ∃ line ∈ lines, line.span.start ≤ e.span.start ∧ e.span.stop ≤ line.span.stop := by
  induction lines generalizing d with
  | nil => cases failed
  | cons line later ih =>
    rw [List.foldlM_cons] at failed
    rcases bind_eq_error.mp failed with failed | ⟨next, -, failed⟩
    · refine ⟨line, List.mem_cons_self, ?_⟩
      unfold readProperties at failed
      split at failed
      · next inLine rejected =>
        cases failed
        exact (Styling.within_of_applyLine rejected).bounds_shift line
      · cases failed
    · obtain ⟨line', member, inside⟩ := ih failed
      exact ⟨line', List.mem_cons_of_mem line member, inside⟩

/-- An error in an input lies within one of the lines that say something, if there are any. -/
theorem exists_line_of_read [Scalar K] {styling : Styling} {source : String} {e : ParseError}
    (failed : read (K := K) styling source = .error e)
    (some : significantLines source.toList ≠ []) :
    ∃ line ∈ significantLines source.toList,
      line.span.start ≤ e.span.start ∧ e.span.stop ≤ line.span.stop := by
  unfold read at failed
  cases lines : significantLines source.toList with
  | nil => exact absurd lines some
  | cons first later =>
    rw [lines] at failed
    rcases bind_eq_error.mp failed with failed | ⟨d, -, failed⟩
    · refine ⟨first, List.mem_cons_self, ?_⟩
      rw [readStart_eq_mapError] at failed
      cases read : readStart (K := K) styling ⟨0, first.text⟩ with
      | error inLine =>
        rw [read] at failed
        cases failed
        exact (within_of_readStart read).bounds_shift first
      | ok d =>
        rw [read] at failed
        cases failed
    · obtain ⟨line, member, inside⟩ := exists_line_of_foldlM failed
      exact ⟨line, List.mem_cons_of_mem first member, inside⟩

/-- A warning lies within one of the lines that say something. -/
theorem exists_line_of_warning [Scalar K] {styling : Styling} {source : String} {d : Document K}
    (done : read styling source = .ok d) {w : Diagnostic} (member : w ∈ d.diagnostics) :
    ∃ line ∈ significantLines source.toList,
      line.span.start ≤ w.span.start ∧ w.span.stop ≤ line.span.stop := by
  obtain ⟨readings, lines, warned⟩ := exists_readings_of_read done
  rw [warned] at member
  obtain ⟨r, inReadings, warning⟩ := List.mem_flatMap.mp member
  have inTail : r.line ∈ (significantLines source.toList).tail := by
    rw [← lines]
    exact List.mem_map_of_mem inReadings
  exact ⟨r.line, List.mem_of_mem_tail inTail, Reading.warning_inside warning⟩

/-- Lines that stand elsewhere. -/
theorem readLines_relocated [Scalar K] {styling : Styling} {lines lines' : List SourceLine}
    (moved : List.Forall₂ (SourceLine.MovedBy move) lines lines') (some : lines ≠ []) :
    readLines styling lines' = relocated (K := K) move 0 (readLines styling lines) := by
  cases moved with
  | nil => exact absurd rfl some
  | @cons line line' later later' first others =>
    simp only [readLines, readStart_relocated (K := K) first]
    cases readStart (K := K) styling line with
    | error e => rfl
    | ok d => exact foldlM_relocated others d

end Document

namespace Session

variable {K : Type} [Scalar K] {move : Span → Span} {more : Nat}

/-- What is made of an input whose lines stand elsewhere. -/
def relocated (move : Span → Span) (more : Nat) (outcome : Except (SessionError K) (Session K)) :
    Except (SessionError K) (Session K) :=
  (outcome.map (relocate move more)).mapError (SessionError.relocate move)

theorem agree_relocate (move : Span → Span) (more : Nat) (s : Session K) :
    Agree move s (s.relocate move more) :=
  ⟨rfl, rfl, rfl, rfl, rfl, fun _ => rfl, rfl⟩

theorem ofDocument_relocate (factors : LayoutFactors K) (d : Document K) :
    ofDocument factors (d.relocate move more) =
      (ofDocument factors d).map (relocate move more) := by
  unfold ofDocument
  cases laid : d.description.tree.layOut
      (factors.bestRadius d.description.longestLabel d.styling.cascade.overrides)
      d.styling.cascade.overrides factors with
  | error e => simp only [Document.relocate, laid, Except.map]
  | ok result => simp only [Document.relocate, laid, Except.map, relocate]

/-- Where lines stand has no influence on the layout. -/
theorem parse_relocated {source source' : String} {sheet sheet' : Stylesheet} {capacity : Nat}
    (read : Document.read (K := K) (initialStyling sheet' capacity) source' =
      Document.relocated move more (Document.read (initialStyling sheet capacity) source))
    (factors : LayoutFactors K) :
    parse source' factors sheet' capacity =
      relocated move more (parse source factors sheet capacity) := by
  unfold parse
  rw [read]
  cases Document.read (K := K) (initialStyling sheet capacity) source with
  | error e => rfl
  | ok d =>
    change (ofDocument factors (d.relocate move more)).mapError SessionError.layout =
      relocated move more ((ofDocument factors d).mapError SessionError.layout)
    rw [ofDocument_relocate]
    cases ofDocument factors d <;> rfl

end Session

end TreeDiagram
