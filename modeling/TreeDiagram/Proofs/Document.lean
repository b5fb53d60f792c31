import TreeDiagram.Session
import TreeDiagram.Proofs.Description.Acceptance
/-!
# Inputs that are read

An input with a start line for a derivation is read if its later lines are and its tree can be laid
out.
-/

namespace TreeDiagram

theorem Document.readStart_of_derivation {K : Type} [Scalar K] {styling : Styling}
    {line : SourceLine} {rest : List Char} {tree : TreeDescription.Derivation}
    (marked : afterStartMarker? line.text = some rest)
    (words : (lex rest).toOption.map (List.map Lexeme.token) = some tree.words) :
    readStart (K := K) styling line = .ok { description := tree.description, styling } := by
  obtain ⟨lexemes, split, same⟩ := toOption_map_eq_some.mp words
  have described := TreeDescription.parse_of_derivation (K := K) split same
  simp only [readStart, marked, described]

/-- A start line that is read carries the words of a derivation behind its marker. -/
theorem Document.readStart_eq_ok {K : Type} [Scalar K] {styling : Styling} {line : SourceLine}
    {d : Document K} (done : readStart styling line = .ok d) :
    ∃ rest, ∃ tree : TreeDescription.Derivation, afterStartMarker? line.text = some rest ∧
      (lex rest).toOption.map (List.map Lexeme.token) = some tree.words ∧
      d = { description := tree.description, styling } := by
  unfold readStart at done
  split at done
  · cases done
  · next rest marked =>
    dsimp only at done
    split at done
    · cases done
    · next description parsed =>
      cases done
      obtain ⟨words, split, -⟩ := bind_eq_ok.mp parsed
      obtain ⟨tree, same, rfl⟩ := (TreeDescription.parse_eq_ok split).mp parsed
      exact ⟨rest, tree, marked, toOption_map_eq_some.mpr ⟨words, split, same⟩, rfl⟩

/-- An input that is read has a first line with the words of a derivation, over whose tree its later
lines take effect. -/
theorem Document.exists_lines_of_read {K : Type} [Scalar K] {styling : Styling} {source : String}
    {d : Document K} (h : read styling source = .ok d) :
    ∃ first later rest, ∃ tree : TreeDescription.Derivation,
      significantLines source.toList = first :: later ∧
        afterStartMarker? first.text = some rest ∧
        (lex rest).toOption.map (List.map Lexeme.token) = some tree.words ∧
        later.foldlM readProperties { description := tree.description, styling } = .ok d := by
  unfold read at h
  cases lines : significantLines source.toList with
  | nil =>
    rw [lines] at h
    cases h
  | cons first later =>
    rw [lines] at h
    obtain ⟨start, begun, done⟩ := bind_eq_ok.mp h
    obtain ⟨rest, tree, marked, words, rfl⟩ := readStart_eq_ok begun
    exact ⟨first, later, rest, tree, rfl, marked, words, done⟩

theorem Document.read_eq_ok {K : Type} [Scalar K] {styling : Styling} {source : String}
    {d : Document K} (h : read styling source = .ok d) : ∃ first later description,
      significantLines source.toList = first :: later ∧
        later.foldlM readProperties { description, styling } = .ok d := by
  obtain ⟨first, later, -, tree, lines, -, -, done⟩ := exists_lines_of_read h
  exact ⟨first, later, tree.description, lines, done⟩

/-- What a property line does that takes effect. -/
theorem Document.readProperties_eq_ok {K : Type} {d next : Document K} {line : SourceLine} :
    readProperties d line = .ok next ↔ ∃ scanned after, scanLine line.text = .ok scanned ∧
      d.styling.commit (byteLength line.text) scanned = .ok after ∧
      next = { d with
        styling := after
        diagnostics := d.diagnostics ++ scanned.diagnostics.map (Diagnostic.shift line.offset)
        propertyLines := d.propertyLines + 1 } := by
  constructor
  · intro done
    unfold readProperties at done
    split at done
    · cases done
    · next applied =>
      cases done
      obtain ⟨scanned, accepted, applied⟩ := bind_eq_ok.mp applied
      obtain ⟨after, taken, same⟩ := bind_eq_ok.mp applied
      cases same
      exact ⟨scanned, _, accepted, taken, rfl⟩
  · rintro ⟨scanned, after, accepted, taken, rfl⟩
    simp only [readProperties, Styling.applyLine, accepted, taken, bind, Except.bind]

theorem Document.description_of_foldlM {K : Type} {lines : List SourceLine} {d last : Document K}
    (done : lines.foldlM readProperties d = .ok last) : last.description = d.description := by
  refine foldlM_invariant (P := fun e => e.description = d.description) ?_ rfl done
  intro e line next same first
  obtain ⟨scanned, after, -, -, rfl⟩ := readProperties_eq_ok.mp first
  exact same

/-- The tree of an input that is read is that of a derivation. -/
theorem Document.exists_derivation_of_read {K : Type} [Scalar K] {styling : Styling}
    {source : String} {d : Document K} (h : read styling source = .ok d) :
    ∃ tree : TreeDescription.Derivation, d.description = tree.description := by
  obtain ⟨_, _, _, tree, -, -, -, done⟩ := exists_lines_of_read h
  exact ⟨tree, description_of_foldlM done⟩

namespace Session

theorem document_of_ofDocument {K : Type} [Scalar K] {factors : LayoutFactors K} {d : Document K}
    {s : Session K} (h : ofDocument factors d = .ok s) : s.document = d := by
  obtain ⟨laid, -, rfl⟩ := map_eq_ok.mp h
  rfl

/-- The layout of a document is made with the style and the longest label of the document. -/
theorem compute_of_ofDocument {K : Type} [Scalar K] {factors : LayoutFactors K} {d : Document K}
    {s : Session K} (laidOut : ofDocument factors d = .ok s) :
    Layout.compute d.description.tree
      (factors.bestRadius d.description.longestLabel d.styling.cascade.overrides)
      d.styling.cascade.overrides factors = .ok s.layout := by
  obtain ⟨⟨layout, tree⟩, laid, rfl⟩ := map_eq_ok.mp laidOut
  obtain ⟨layout', computed, same⟩ := map_eq_ok.mp laid
  cases same
  exact computed

theorem parse_eq_ok {K : Type} [Scalar K] {source : String} {factors : LayoutFactors K}
    {sheet : Stylesheet} {capacity : Nat} {s : Session K}
    (parsed : parse source factors sheet capacity = .ok s) :
    Document.read (initialStyling sheet capacity) source = .ok s.document ∧
      ofDocument factors s.document = .ok s := by
  unfold parse at parsed
  split at parsed
  · cases parsed
  · next d read =>
    have laidOut := mapError_eq_ok.mp parsed
    rw [document_of_ofDocument laidOut]
    exact ⟨read, laidOut⟩

/-- An input that is read is parsed if its tree has a layout. -/
theorem exists_parse_of_compute {K : Type} [Scalar K] {source : String} {factors : LayoutFactors K}
    {sheet : Stylesheet} {capacity : Nat} {d : Document K} {layout : Layout K}
    (read : Document.read (initialStyling sheet capacity) source = .ok d)
    (laid : Layout.compute d.description.tree
      (factors.bestRadius d.description.longestLabel d.styling.cascade.overrides)
      d.styling.cascade.overrides factors = .ok layout) :
    ∃ s, parse source factors sheet capacity = .ok s ∧ s.document = d ∧ s.layout = layout := by
  refine ⟨⟨d, d.description.tree.settle layout.nodes, layout⟩, ?_, rfl, rfl⟩
  simp only [parse, read, ofDocument, Tree.layOut, laid]
  rfl

theorem read_of_parse_error {K : Type} [Scalar K] {source : String} {factors : LayoutFactors K}
    {sheet : Stylesheet} {capacity : Nat} {e : ParseError}
    (failed : parse source factors sheet capacity = .error (.parse e)) :
    Document.read (K := K) (initialStyling sheet capacity) source = .error e := by
  unfold parse at failed
  split at failed
  · next unread =>
    cases failed
    exact unread
  · next d _ => cases done : ofDocument factors d <;> rw [done] at failed <;> cases failed

/-- An input is parsed, and what is asked of its session holds, if that comes out for its later
lines and its layout. -/
theorem exists_parse_of_lines {K : Type} [Scalar K] (factors : LayoutFactors K)
    (sheet : Stylesheet) {source : String} {first : SourceLine} {later : List SourceLine}
    {rest : List Char} {tree : TreeDescription.Derivation} {P : Session K → Prop} [DecidablePred P]
    (lines : significantLines source.toList = first :: later)
    (marked : afterStartMarker? first.text = some rest)
    (words : (lex rest).toOption.map (List.map Lexeme.token) = some tree.words)
    (holds : ((later.foldlM Document.readProperties
      ({ description := tree.description, styling := initialStyling sheet maxNodeId } :
        Document K)).toOption.bind fun d => (ofDocument factors d).toOption).any
          fun s => decide (P s)) :
    ∃ s : Session K, parse source factors sheet = .ok s ∧ P s := by
  rw [Option.any_eq_true] at holds
  obtain ⟨s, made, asked⟩ := holds
  obtain ⟨d, outcome, done⟩ := Option.bind_eq_some_iff.mp made
  rw [toOption_eq_some] at outcome done
  have begun : Document.readStart (K := K) (initialStyling sheet maxNodeId) first =
      .ok { description := tree.description, styling := initialStyling sheet maxNodeId } :=
    Document.readStart_of_derivation marked words
  have read : Document.read (initialStyling sheet maxNodeId) source = .ok d := by
    simp only [Document.read, lines, Document.readLines, begun, bind, Except.bind]
    exact outcome
  refine ⟨s, ?_, of_decide_eq_true asked⟩
  simp only [parse, read, done]
  rfl

end Session

end TreeDiagram
