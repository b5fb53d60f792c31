import Mathlib.Data.String.Basic
import TreeDiagram.Proofs.Text.Runs
/-!
# Places in a text

A span of bytes shows a text if the text stands there. What is shown within a shown text is shown
in the whole, so that a place may be found line by line and word by word.
-/

namespace TreeDiagram

/-- A span cuts a text out of a source: it lies within the source, both of its ends are between
characters, and the text is what stands there. -/
structure Span.Cuts (span : Span) (source : String) (text : List Char) : Prop where
  ordered : span.start ≤ span.stop
  inside : span.stop ≤ source.utf8ByteSize
  startsAtChar : String.Pos.Raw.IsValid source ⟨span.start⟩
  stopsAtChar : String.Pos.Raw.IsValid source ⟨span.stop⟩
  slice : String.Pos.Raw.extract source ⟨span.start⟩ ⟨span.stop⟩ = String.ofList text

theorem utf8Len_eq_byteLength (cs : List Char) : String.utf8Len cs = byteLength cs := by
  induction cs with
  | nil => rfl
  | cons c cs ih => rw [String.utf8Len_cons, byteLength_cons, ih, Nat.add_comm]

theorem byteLength_toList (source : String) : byteLength source.toList = source.utf8ByteSize := by
  rw [← utf8Len_eq_byteLength, ← String.utf8ByteSize_ofList, String.ofList_toList]

theorem utf8ByteSize_ofList (cs : List Char) : (String.ofList cs).utf8ByteSize = byteLength cs := by
  rw [String.utf8ByteSize_ofList, utf8Len_eq_byteLength]

namespace Cursor

variable {c : Cursor} {s s' : Span} {text text' : List Char}

theorem shows_iff : c.Shows s text ↔ ∃ before behind, c.rest = before ++ (text ++ behind) ∧
    s = ⟨c.pos + byteLength before, c.pos + byteLength before + byteLength text⟩ := by
  constructor
  · intro h
    cases h with
    | @intro before text start stop reach across =>
      refine ⟨before, stop.rest, ?_, ?_⟩
      · rw [reach.rest, across.rest]
      · rw [across.pos, reach.pos]
  · rintro ⟨before, behind, whole, rfl⟩
    let start : Cursor := ⟨c.pos + byteLength before, text ++ behind⟩
    let stop : Cursor := ⟨c.pos + byteLength before + byteLength text, behind⟩
    have reach : c.Passes before start := ⟨whole, rfl⟩
    have across : start.Passes text stop := ⟨rfl, rfl⟩
    exact .intro reach across

theorem Shows.bounds (h : c.Shows s text) :
    c.pos ≤ s.start ∧ s.stop ≤ c.pos + byteLength c.rest := by
  obtain ⟨before, behind, whole, rfl⟩ := shows_iff.mp h
  rw [whole, byteLength_append, byteLength_append]
  dsimp only
  omega

/-- What is shown within a shown text is shown in the whole. -/
theorem Shows.trans (h : c.Shows s text) (inner : Shows ⟨s.start, text⟩ s' text') :
    c.Shows s' text' := by
  obtain ⟨before, behind, whole, rfl⟩ := shows_iff.mp h
  obtain ⟨before', behind', whole', rfl⟩ := shows_iff.mp inner
  dsimp only at whole'
  refine shows_iff.mpr ⟨before ++ before', behind' ++ behind, ?_, ?_⟩
  · rw [whole, whole']
    simp only [List.append_assoc]
  · rw [byteLength_append, ← Nat.add_assoc]

theorem Shows.shift {pos : Nat} {cs : List Char} (h : Shows ⟨pos, cs⟩ s text) (base : Nat) :
    Shows ⟨pos + base, cs⟩ (s.shift base) text := by
  obtain ⟨before, behind, whole, rfl⟩ := shows_iff.mp h
  refine shows_iff.mpr ⟨before, behind, whole, ?_⟩
  simp only [Span.shift, Span.mk.injEq]
  omega

/-- A text that is shown is cut out by its span. -/
theorem Shows.cuts {source : String} (h : (Cursor.start source.toList).Shows s text) :
    s.Cuts source text := by
  obtain ⟨before, behind, whole, rfl⟩ := shows_iff.mp h
  have parts : source = String.ofList (before ++ text ++ behind) := by
    rw [List.append_assoc, ← show source.toList = _ from whole, String.ofList_toList]
  have size : source.utf8ByteSize =
      byteLength before + byteLength text + byteLength behind := by
    rw [parts, utf8ByteSize_ofList, byteLength_append,
      byteLength_append]
  have boundary : ∀ front back, source = String.ofList (front ++ back) →
      String.Pos.Raw.IsValid source ⟨byteLength front⟩ := by
    intro front back split
    refine String.Pos.Raw.isValid_iff_exists_append.mpr
      ⟨String.ofList front, String.ofList back, ?_, ?_⟩
    · rw [split, String.ofList_append]
    · rw [String.rawEndPos_ofList, utf8Len_eq_byteLength]
  simp only [start, Nat.zero_add]
  constructor
  · exact Nat.le_add_right _ _
  · dsimp only
    rw [size]
    exact Nat.le_add_right _ _
  · exact boundary before (text ++ behind) (by rw [parts, List.append_assoc])
  · rw [← byteLength_append]
    exact boundary (before ++ text) behind parts
  · rw [parts, ← utf8Len_eq_byteLength, ← utf8Len_eq_byteLength]
    exact String.extract_of_valid before text behind

end Cursor

end TreeDiagram
