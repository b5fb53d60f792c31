import TreeDiagram.Session
import TreeDiagram.Proofs.Description.Offence
import TreeDiagram.Proofs.Document
import TreeDiagram.Proofs.Property.Offence
import TreeDiagram.Proofs.Property.Warning
/-!
# Errors and warnings point at what they name

Places are found in a line or in a description first and then moved to where that stands in the
input. The span of every error is that of the text which the error names, and the warnings show the
pairs that nodes do not take, in the order in which they stand.
-/

namespace TreeDiagram

/-- Where an error points in an input: at the piece that it names, at a later line that the table
did not take, at the first line if it lacks the marker, or nowhere in an input without lines. -/
inductive ParseError.PointsInto (source : String) : ParseError → Prop
  | piece {e : ParseError} {text : List Char} (cut : e.span.Cuts source text)
      (names : e.cause.Names text) : PointsInto source e
  | full {line : SourceLine} {error : StoreError}
      (later : line ∈ (significantLines source.toList).tail)
      (cut : line.span.Cuts source line.text) : PointsInto source ⟨.ofStore error, line.span⟩
  | unmarked {line : SourceLine} (first : (significantLines source.toList).head? = some line)
      (lacks : afterStartMarker? line.text = none) (cut : line.span.Cuts source line.text) :
      PointsInto source ⟨.startTokenMissing, line.span⟩
  | silent (nothing : significantLines source.toList = []) (cut : Span.Cuts ⟨0, 0⟩ source []) :
      PointsInto source ⟨.startTokenMissing, ⟨0, 0⟩⟩

theorem cuts_of_mem_significantLines {source : String} {line : SourceLine}
    (member : line ∈ significantLines source.toList) : line.span.Cuts source line.text :=
  (significantLines_shows line member).cuts

/-- What is located in a line is cut out of the input. -/
theorem ParseError.LocatedIn.pointsInto {source : String} {line : SourceLine} {e : ParseError}
    (located : e.LocatedIn ⟨line.offset, line.text⟩)
    (member : line ∈ significantLines source.toList) : e.PointsInto source := by
  obtain ⟨text, shows, names⟩ := located
  have whole := (significantLines_shows line member).trans shows
  exact .piece whole.cuts names

theorem exists_marker_append {line rest : List Char} (marked : afterStartMarker? line = some rest) :
    ∃ marker, line = marker ++ rest := by
  unfold afterStartMarker? at marked
  dsimp only at marked
  split at marked
  · split at marked
    · next behind sign =>
      cases marked
      let marker := line.take startMarker.toList.length
      let blanks := (line.drop startMarker.toList.length).takeWhile isBlank
      refine ⟨marker ++ (blanks ++ ['=']), ?_⟩
      calc line = marker ++ line.drop startMarker.toList.length :=
            (List.take_append_drop _ line).symm
        _ = marker ++ (blanks ++ '=' :: rest) := by rw [← sign, List.takeWhile_append_dropWhile]
        _ = (marker ++ (blanks ++ ['='])) ++ rest := by simp only [List.append_assoc,
              List.singleton_append]
    · cases marked
  · cases marked

/-- A line that the table does not take is not at fault by itself. -/
theorem Styling.applyLine_eq_error {s : Styling} {line : List Char} {e : ParseError}
    (h : s.applyLine line = .error e) : e.LocatedIn (Cursor.start line) ∨
      ∃ error, e = ⟨.ofStore error, ⟨0, byteLength line⟩⟩ := by
  rcases bind_eq_error.mp h with rejected | ⟨scanned, -, h⟩
  · exact .inl (locatedIn_of_scanLine rejected)
  · rcases bind_eq_error.mp h with refused | ⟨next, -, impossible⟩
    · right
      unfold Styling.commit at refused
      split at refused
      · cases refused
      · split at refused
        · cases refused
        · split at refused
          · cases refused
          · next error merged =>
            cases refused
            exact ⟨error, rfl⟩
    · cases impossible

namespace Document

variable {K : Type}

section Errors

variable [Scalar K] {source : String} {styling : Styling} {line : SourceLine} {e : ParseError}

theorem pointsInto_of_readStart (h : readStart (K := K) styling line = .error e)
    (first : (significantLines source.toList).head? = some line) : e.PointsInto source := by
  have member : line ∈ significantLines source.toList := List.mem_of_head? first
  unfold readStart at h
  split at h
  · next lacks =>
    cases h
    exact .unmarked first lacks (cuts_of_mem_significantLines member)
  · next rest marked =>
    dsimp only at h
    split at h
    · next inRest failed =>
      cases h
      obtain ⟨marker, whole⟩ := exists_marker_append marked
      -- the description begins as far into the line as the line is longer
      let base := line.offset + (byteLength line.text - byteLength rest)
      have passed : (Cursor.mk line.offset line.text).Passes marker ⟨0 + base, rest⟩ := by
        constructor
        · exact whole
        · have length := congrArg byteLength whole
          rw [byteLength_append] at length
          simp only [base]
          omega
      have located := (TreeDescription.locatedIn_of_parse failed).shift base
      exact (located.of_passes passed).pointsInto member
    · cases h

omit [Scalar K] in
theorem pointsInto_of_readProperties {d : Document K} (h : readProperties d line = .error e)
    (later : line ∈ (significantLines source.toList).tail) : e.PointsInto source := by
  have member : line ∈ significantLines source.toList := List.mem_of_mem_tail later
  unfold readProperties at h
  split at h
  · next inLine failed =>
    cases h
    rcases Styling.applyLine_eq_error failed with located | ⟨error, rfl⟩
    · have moved : (inLine.shift line.offset).LocatedIn ⟨0 + line.offset, line.text⟩ :=
        located.shift line.offset
      rw [Nat.zero_add] at moved
      exact moved.pointsInto member
    · have place : Span.shift line.offset ⟨0, byteLength line.text⟩ = line.span := by
        rw [Span.shift, SourceLine.span, Nat.zero_add, Nat.add_comm]
      rw [ParseError.shift, place]
      exact .full later (cuts_of_mem_significantLines member)
  · cases h

omit [Scalar K] in
theorem pointsInto_of_foldlM {d : Document K} {lines : List SourceLine}
    (h : lines.foldlM readProperties d = .error e)
    (inSource : ∀ line ∈ lines, line ∈ (significantLines source.toList).tail) :
    e.PointsInto source := by
  induction lines generalizing d with
  | nil => cases h
  | cons line later ih =>
    rw [List.foldlM_cons] at h
    rcases bind_eq_error.mp h with failed | ⟨next, -, failed⟩
    · exact pointsInto_of_readProperties failed (inSource line List.mem_cons_self)
    · apply ih failed
      intro line' member
      exact inSource line' (List.mem_cons_of_mem line member)

theorem pointsInto_of_read (h : read (K := K) styling source = .error e) :
    e.PointsInto source := by
  unfold read at h
  cases lines : significantLines source.toList with
  | nil =>
    rw [lines] at h
    cases h
    have nowhere : (Cursor.start source.toList).Shows ⟨0, 0⟩ [] :=
      (Cursor.Passes.refl (Cursor.start source.toList)).shows
    exact .silent lines nowhere.cuts
  | cons first later =>
    rw [lines] at h
    rcases bind_eq_error.mp h with failed | ⟨d, -, failed⟩
    · exact pointsInto_of_readStart failed (by rw [lines]; rfl)
    · apply pointsInto_of_foldlM failed
      intro line member
      rw [lines]
      exact member

end Errors

section Warnings

variable {d last : Document K}

theorem exists_reading_of_readProperties {line : SourceLine}
    (h : readProperties d line = .ok last) :
    ∃ r : Reading, r.line = line ∧ last.diagnostics = d.diagnostics ++ r.warnings := by
  obtain ⟨scanned, after, accepted, -, rfl⟩ := readProperties_eq_ok.mp h
  obtain ⟨scope, pairs, said, rfl⟩ := scanLine_eq_ok_iff.mp accepted
  refine ⟨⟨line, scope, pairs, said⟩, rfl, ?_⟩
  cases scope with
  | global => rfl
  | node id =>
    simp only [ScannedLine.ofPairs_node, Reading.warnings, List.map_map]
    rfl

theorem exists_readings_of_foldlM {lines : List SourceLine}
    (h : lines.foldlM readProperties d = .ok last) : ∃ readings : List Reading,
      readings.map Reading.line = lines ∧
        last.diagnostics = d.diagnostics ++ readings.flatMap Reading.warnings := by
  induction lines generalizing d with
  | nil =>
    cases h
    exact ⟨[], rfl, by simp⟩
  | cons line later ih =>
    rw [List.foldlM_cons] at h
    obtain ⟨next, first, rest⟩ := bind_eq_ok.mp h
    obtain ⟨r, rfl, warned⟩ := exists_reading_of_readProperties first
    obtain ⟨readings, lines, warned'⟩ := ih rest
    refine ⟨r :: readings, by rw [List.map_cons, lines], ?_⟩
    rw [warned', warned, List.append_assoc, List.flatMap_cons]

theorem exists_readings_of_read [Scalar K] {styling : Styling} {source : String}
    (h : read styling source = .ok last) : ∃ readings : List Reading,
      readings.map Reading.line = (significantLines source.toList).tail ∧
        last.diagnostics = readings.flatMap Reading.warnings := by
  obtain ⟨first, later, description, lines, rest⟩ := read_eq_ok h
  obtain ⟨readings, same, warned⟩ := exists_readings_of_foldlM rest
  rw [lines]
  exact ⟨readings, same, warned⟩

end Warnings

end Document

/-- The warnings of the lines of an input show the pairs that they warn of, in their order. -/
theorem Reading.warnings_located {source : String} {readings : List Reading}
    (lines : readings.map Reading.line = (significantLines source.toList).tail) :
    (∀ d ∈ readings.flatMap Reading.warnings, d.property.scope = .extend ∧
        ∃ r ∈ readings, r.scope = .node d.node ∧ ∃ a ∈ r.pairs, a.property = d.property ∧
          ∃ written after, d.span.Cuts source written ∧
            Line.PairText a.property a.value written after) ∧
      (readings.flatMap Reading.warnings).Pairwise Reading.InOrder := by
  constructor
  · intro d member
    obtain ⟨r, inReadings, warned⟩ := List.mem_flatMap.mp member
    obtain ⟨scope, extend, a, inLine, same, written, after, shows, pair⟩ :=
      exists_of_mem_warnings warned
    have inSource : r.line ∈ significantLines source.toList := by
      apply List.mem_of_mem_tail
      rw [← lines]
      exact List.mem_map_of_mem inReadings
    have whole := (significantLines_shows r.line inSource).trans shows
    exact ⟨extend, r, inReadings, scope, a, inLine, same, written, after, whole.cuts, pair⟩
  · apply inOrder_flatMap_warnings
    rw [lines]
    exact (pairwise_significantLines source.toList).sublist (List.tail_sublist _)

namespace Session

variable {K : Type} [Scalar K]

/-- An error points at what it names, and the warnings of an input that is read point at the pairs
of extend scope in its lines for nodes: at each of them once, and in their order. -/
theorem parse_points_at_causes (source : String) (factors : LayoutFactors K) (sheet : Stylesheet)
    (capacity : Nat) :
    (∀ e, parse source factors sheet capacity = .error (.parse e) → e.PointsInto source) ∧
      ∀ s, parse source factors sheet capacity = .ok s → ∃ readings : List Reading,
        readings.map Reading.line = (significantLines source.toList).tail ∧
          s.diagnostics = readings.flatMap Reading.warnings ∧
          (∀ d ∈ s.diagnostics, d.property.scope = .extend ∧
            ∃ r ∈ readings, r.scope = .node d.node ∧ ∃ a ∈ r.pairs, a.property = d.property ∧
              ∃ written after, d.span.Cuts source written ∧
                Line.PairText a.property a.value written after) ∧
          s.diagnostics.Pairwise Reading.InOrder := by
  constructor
  · intro e failed
    unfold parse at failed
    split at failed
    · next inSource read =>
      cases failed
      exact Document.pointsInto_of_read read
    · next d read =>
      cases done : ofDocument factors d <;> rw [done] at failed <;> cases failed
  · intro s parsed
    obtain ⟨readings, lines, warned⟩ := Document.exists_readings_of_read (parse_eq_ok parsed).1
    obtain ⟨located, order⟩ := Reading.warnings_located lines
    rw [← warned] at located order
    exact ⟨readings, lines, warned, located, order⟩

/-- An input whose description has a character that belongs to no word, behind a comment with a
letter of two bytes. -/
def strayed : String :=
  "# \u00e9\nbitree = A(B;C)\n"

/-- An input that sets the font of a single node. -/
def misscoped : String :=
  "bitree = A(B,C)\n1[FontSize=14, FillColor=2];\n"

theorem parse_strayed :
    parse (K := Rat) strayed = .error (.parse ⟨.lexical ';', ⟨17, 18⟩⟩) := by
  have lines : significantLines strayed.toList = [⟨5, "bitree = A(B;C)".toList⟩] := by
    decide +kernel
  have marked : afterStartMarker? "bitree = A(B;C)".toList = some " A(B;C)".toList := by
    decide +kernel
  have words : lex " A(B;C)".toList = .error ⟨.lexical ';', ⟨4, 5⟩⟩ := by decide +kernel
  have failed : TreeDescription.parse (K := Rat) " A(B;C)".toList =
      .error ⟨.lexical ';', ⟨4, 5⟩⟩ := by
    rw [TreeDescription.parse, words]
    rfl
  have start : Document.readStart (K := Rat) (initialStyling {} maxNodeId)
      ⟨5, "bitree = A(B;C)".toList⟩ = .error ⟨.lexical ';', ⟨17, 18⟩⟩ := by
    simp only [Document.readStart, marked, failed]
    rfl
  simp only [parse, Document.read, lines, Document.readLines, start, bind, Except.bind]

theorem lines_misscoped :
    significantLines misscoped.toList =
        [⟨0, "bitree = A(B,C)".toList⟩, ⟨16, "1[FontSize=14, FillColor=2]".toList⟩] ∧
      afterStartMarker? "bitree = A(B,C)".toList = some " A(B,C)".toList ∧
      (lex " A(B,C)".toList).toOption.map (List.map Lexeme.token) =
        some (TreeDescription.Derivation.branch "A" (.leaf "B") (.leaf "C")).words := by
  decide +kernel

theorem exists_parse_misscoped : ∃ s : Session Rat, parse misscoped = .ok s ∧
    s.diagnostics = [⟨⟨18, 29⟩, 1, .fontSize⟩] := by
  obtain ⟨lines, marked, words⟩ := lines_misscoped
  exact exists_parse_of_lines {} {} lines marked words (by decide +kernel)

theorem parse_points_at_semicolon_and_font :
    (parse (K := Rat) strayed = .error (.parse ⟨.lexical ';', ⟨17, 18⟩⟩) ∧
      ParseError.PointsInto strayed ⟨.lexical ';', ⟨17, 18⟩⟩) ∧
    ∃ s : Session Rat, parse misscoped = .ok s ∧
      s.diagnostics = [⟨⟨18, 29⟩, 1, .fontSize⟩] ∧
      ∃ written, Span.Cuts ⟨18, 29⟩ misscoped written := by
  refine ⟨⟨parse_strayed, ?_⟩, ?_⟩
  · exact (parse_points_at_causes strayed {} {} maxNodeId).1 _ parse_strayed
  · obtain ⟨s, parsed, warned⟩ := exists_parse_misscoped
    obtain ⟨readings, -, -, located, -⟩ :=
      (parse_points_at_causes misscoped {} {} maxNodeId).2 s parsed
    rw [warned] at located
    obtain ⟨-, r, -, -, a, -, -, written, after, cut, -⟩ := located _ List.mem_cons_self
    exact ⟨s, parsed, warned, written, cut⟩

end Session

end TreeDiagram
