import TreeDiagram.Proofs.Bytewise.Document
import TreeDiagram.Proofs.Property.Warning
/-!
# Places between characters

Nothing that is read is cut inside of a character, and no place that is handed on lies inside of
one. The places of the pairs of a line, those that count and those that are warned of, come one
behind the other.
-/

namespace TreeDiagram

/-! ## The places in a line -/

/-- Of two spans the first one ends before the second one begins. -/
def Span.Before (s later : Span) : Prop :=
  s.stop ≤ later.start

theorem Cursor.Shows.width {c : Cursor} {s : Span} {text : List Char} (h : c.Shows s text) :
    s.stop = s.start + byteLength text := by
  obtain ⟨before, behind, whole, rfl⟩ := shows_iff.mp h
  rfl

/-- What a line is rejected for stands between characters. -/
theorem fitsIn_of_scanLine_error {line : String} {e : ParseError}
    (rejected : scanLine line.toList = .error e) : e.span.FitsIn line := by
  obtain ⟨text, shows, -⟩ := locatedIn_of_scanLine rejected
  exact Bytewise.fitsIn_of_cuts shows.cuts

namespace Line.LineText

variable {scope : LineScope} {pairs : List Assignment} {line : String}

/-- A pair stands between characters, and takes at least the first letter of its name. -/
theorem fitsIn (said : LineText scope pairs line.toList) :
    ∀ a ∈ pairs, a.span.FitsIn line ∧ a.span.start < a.span.stop := by
  intro a member
  obtain ⟨written, after, shows, pair⟩ := said.shows a member
  obtain ⟨first, more, rfl, -⟩ := pair.exists_eq_cons
  refine ⟨Bytewise.fitsIn_of_cuts shows.cuts, ?_⟩
  have positive := first.utf8Size_pos
  rw [shows.width, byteLength_cons]
  omega

end Line.LineText

namespace ScannedLine

/-- The spans of the pairs that count, and those of the pairs that are warned of. -/
def spans (scanned : ScannedLine) : List Span :=
  scanned.assignments.map Assignment.span ++ scanned.diagnostics.map Diagnostic.span

theorem perm_spans (scope : LineScope) (pairs : List Assignment) :
    (pairs.map Assignment.span).Perm (ofPairs scope pairs).spans := by
  cases scope with
  | global => simp [spans, ofPairs]
  | node id =>
    have parts := (List.filter_append_perm Assignment.isIgnored pairs).map Assignment.span
    rw [List.map_append] at parts
    simp only [spans, ofPairs, List.map_map]
    exact parts.symm.trans List.perm_append_comm

theorem sublist_spans (scope : LineScope) (pairs : List Assignment) :
    ((ofPairs scope pairs).assignments.map Assignment.span).Sublist (pairs.map Assignment.span) ∧
      ((ofPairs scope pairs).diagnostics.map Diagnostic.span).Sublist
        (pairs.map Assignment.span) := by
  cases scope with
  | global => exact ⟨List.Sublist.refl _, List.nil_sublist _⟩
  | node id =>
    refine ⟨List.filter_sublist.map _, ?_⟩
    simp only [ofPairs, List.map_map]
    exact List.filter_sublist.map Assignment.span

end ScannedLine

namespace Bytewise

/-- A reading that does not break down: the text is cut, and what is found in it is located, between
characters only. -/
def InPlace {α : Type} (x : Except Halt α) : Prop :=
  ∀ s, x ≠ .error (.misplaced s)

theorem inPlace_ok {α : Type} (a : α) : InPlace (.ok a) := by
  intro s broken
  cases broken

theorem inPlace_mapError {α : Type} (x : Except ParseError α) : InPlace (x.mapError .rejected) := by
  intro s broken
  cases x <;> cases broken

/-- Byte by byte nothing is cut inside of a character: not a property line, not the start line, not
the lines of an input, not a description, and so no input. What is read is what is read character by
character. Every error of a line, every pair that counts and every pair that is warned of stands in
the line between characters; the pairs of both kinds together come one behind the other. -/
theorem reading_never_splits_characters {K : Type} [Scalar K] :
    (∀ line, InPlace (scanLine line) ∧
      scanLine line = (TreeDiagram.scanLine line.toList).mapError .rejected) ∧
    (∀ line, InPlace (behindStartMarker? line) ∧
      behindStartMarker? line =
        .ok ((afterStartMarker? line.toList).map fun rest => line.utf8ByteSize - byteLength rest)) ∧
    (∀ source, InPlace (significantLines source) ∧
      significantLines source = .ok ((TreeDiagram.significantLines source.toList).map .ofLine)) ∧
    (∀ text, InPlace (lex text) ∧ lex text = (TreeDiagram.lex text.toList).mapError .rejected) ∧
    (∀ styling source, InPlace (read (K := K) styling source) ∧
      read (K := K) styling source = (Document.read styling source).mapError .rejected) ∧
    (∀ (line : String) e, TreeDiagram.scanLine line.toList = .error e → e.span.FitsIn line) ∧
    ∀ (line : String) scanned, TreeDiagram.scanLine line.toList = .ok scanned →
      (∀ s ∈ scanned.spans, s.FitsIn line ∧ s.start < s.stop) ∧
      ∃ spans, scanned.spans.Perm spans ∧ spans.Pairwise Span.Before ∧
        (scanned.assignments.map Assignment.span).Sublist spans ∧
        (scanned.diagnostics.map Diagnostic.span).Sublist spans := by
  refine ⟨?_, ?_, ?_, ?_, ?_, fun line e => fitsIn_of_scanLine_error, ?_⟩
  · intro line
    exact ⟨scanLine_eq line ▸ inPlace_mapError _, scanLine_eq line⟩
  · intro line
    exact ⟨behindStartMarker?_eq line ▸ inPlace_ok _, behindStartMarker?_eq line⟩
  · intro source
    exact ⟨significantLines_eq source ▸ inPlace_ok _, significantLines_eq source⟩
  · intro text
    exact ⟨lex_eq text ▸ inPlace_mapError _, lex_eq text⟩
  · intro styling source
    exact ⟨read_eq (K := K) styling source ▸ inPlace_mapError _, read_eq styling source⟩
  · intro line scanned accepted
    obtain ⟨scope, pairs, said, rfl⟩ := scanLine_eq_ok_iff.mp accepted
    have together := ScannedLine.perm_spans scope pairs
    obtain ⟨assigned, warned⟩ := ScannedLine.sublist_spans scope pairs
    refine ⟨?_, pairs.map Assignment.span, together.symm, ?_, assigned, warned⟩
    · intro s member
      obtain ⟨a, inLine, rfl⟩ := List.mem_map.mp (together.mem_iff.mpr member)
      exact said.fitsIn a inLine
    · exact List.pairwise_map.mpr said.inOrder

/-- Letters of two bytes in a value without quotes, and one where a bracket is due. -/
theorem reading_never_splits_characters_umlaut :
    (∃ scanned, TreeDiagram.scanLine "5[NodeLabel=häß,FontSize=12] /é".toList = .ok scanned ∧
      scanned.spans = [⟨2, 17⟩, ⟨18, 29⟩] ∧
      ∀ s ∈ scanned.spans, s.FitsIn "5[NodeLabel=häß,FontSize=12] /é" ∧ s.start < s.stop) ∧
    ∃ e, TreeDiagram.scanLine "5é".toList = .error e ∧ e.span = ⟨1, 3⟩ ∧ e.span.FitsIn "5é" ∧
      ¬Span.FitsIn ⟨1, 2⟩ "5é" := by
  obtain ⟨-, -, -, -, -, located, placed⟩ := reading_never_splits_characters (K := Rat)
  have accepted : TreeDiagram.scanLine "5[NodeLabel=häß,FontSize=12] /é".toList =
      .ok ⟨.node 5, [⟨.nodeLabel, .text "häß", ⟨2, 17⟩⟩], [⟨⟨18, 29⟩, 5, .fontSize⟩]⟩ := by
    decide +kernel
  have rejected : TreeDiagram.scanLine "5é".toList =
      .error ⟨.malformed (.unexpectedInLine (some 'é') .leftBracket), ⟨1, 3⟩⟩ := by
    decide +kernel
  exact ⟨⟨_, accepted, rfl, (placed _ _ accepted).1⟩,
    ⟨_, rejected, rfl, located _ _ rejected, by decide +kernel⟩⟩

end Bytewise

end TreeDiagram
