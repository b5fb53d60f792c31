import TreeDiagram.Bytewise.Document
import TreeDiagram.Proofs.Bytewise.Description
import TreeDiagram.Proofs.Bytewise.Line
import TreeDiagram.Proofs.Location
import TreeDiagram.Proofs.Outcome
/-!
# Inputs read byte by byte

Lines are cut out of an input at ends of line, trimmed at characters of one byte, and cut behind the
start marker, which is made of such characters as well. So the reader that goes on byte by byte
never cuts inside of a character, and reads of every input what the other one reads.
-/

namespace TreeDiagram

namespace Bytewise

/-! ## Lines that say something -/

theorem uniform_notNewline : Uniform fun x => x != '\n' := by
  apply uniform_of_beyond (a := true)
  intro x high
  have other : x ≠ '\n' := by
    rintro rfl
    exact absurd high (by decide)
  simp [other]

theorem uniform_isTrailing : Uniform isTrailing := by
  apply uniform_of_oneByte
  intro x trailing
  simp only [isTrailing, Bool.or_eq_true, beq_iff_eq] at trailing
  rcases trailing with ((blank | rfl) | rfl) | rfl
  · exact utf8Size_of_isBlank blank
  · rfl
  · rfl
  · rfl

/-- Where the bytes of a class at the end of a text begin, the characters of the class begin. -/
theorem lastRunStart_eq {p : Char → Bool} (uniform : Uniform p) (text : String) :
    lastRunStart p text = byteLength (dropTrailing p text.toList) := by
  have run : (bytes text).reverse.takeWhile (fun b => p (byteChar b)) =
      ((text.toList.reverse.takeWhile p).reverse.flatMap String.utf8EncodeChar).reverse := by
    rw [bytes_eq, List.reverse_flatMap, List.reverse_flatMap, List.reverse_reverse]
    apply takeWhile_flatMap
    · intro x
      exact List.reverse_ne_nil_iff.mpr String.utf8EncodeChar_ne_nil
    · intro x b member
      exact uniform.apply_byteChar (List.mem_reverse.mp member)
  have size := congrArg byteLength (dropTrailing_append_takeWhile p text.toList)
  rw [byteLength_toList, byteLength_append] at size
  rw [lastRunStart, run, List.length_reverse, length_flatMap_utf8EncodeChar, ← size,
    Nat.add_sub_cancel]

/-- Byte by byte the ends of line are found where they stand. -/
theorem lineSpans_eq {source : String} {pos : Nat} {cs : List Char}
    (here : (Cursor.mk pos cs).In source) :
    lineSpans source pos = (splitLines pos cs).map SourceLine.span := by
  have stop : ∀ {pos : Nat} {cs : List Char}, (Cursor.mk pos cs).In source →
      runEnd (· != '\n') source pos = pos + byteLength (cs.takeWhile (· != '\n')) := by
    intro pos cs here
    exact here.runEnd_eq uniform_notNewline
  have behind : ∀ {pos : Nat} {cs : List Char}, (Cursor.mk pos cs).In source →
      (Cursor.mk (pos + byteLength (cs.takeWhile (· != '\n')))
        (cs.dropWhile (· != '\n'))).In source := by
    intro pos cs here
    exact here.of_passes ((Cursor.mk pos cs).passes_span (· != '\n'))
  fun_induction splitLines pos cs with
  | case1 pos cs line all =>
    have ended := (behind here).atEnd_iff.mpr (List.isEmpty_iff.mpr all)
    rw [lineSpans]
    simp only [stop here]
    exact if_neg (Nat.not_lt.mpr ended)
  | case2 pos cs line mark later rest shorter ih =>
    have goesOn : pos + byteLength line < source.utf8ByteSize := by
      refine Nat.lt_of_not_le fun beyond => ?_
      have none_ := (behind here).atEnd_iff.mp beyond
      rw [Cursor.atEnd, rest] at none_
      cases none_
    have across : (Cursor.mk (pos + byteLength line) (cs.dropWhile (· != '\n'))).Passes [mark]
        ⟨pos + byteLength line + 1, later⟩ := ⟨rest, by rw [eq_newline_of_dropWhile rest]; rfl⟩
    rw [lineSpans]
    simp only [stop here]
    rw [if_pos goesOn, ih ((behind here).of_passes across)]
    rfl

theorem skipBlanks_zero (text : String) :
    skipBlanks text 0 = byteLength (text.toList.takeWhile isBlank) :=
  (skipBlanks_eq (Cursor.in_start text)).trans (Nat.zero_add _)

/-- The blanks in front of a text are cut off. -/
theorem slice_skipBlanks (text : String) : slice text ⟨skipBlanks text 0, text.utf8ByteSize⟩ =
    .ok (String.ofList (text.toList.dropWhile isBlank)) := by
  have place : skipBlanks text 0 = (Cursor.start text.toList).skipBlanks.pos :=
    skipBlanks_eq (Cursor.in_start text)
  rw [place]
  exact slice_rest (Cursor.in_start text).skipBlanks

/-- What is dropped behind a text is cut off. -/
theorem slice_lastRunStart (text : String) : slice text ⟨0, lastRunStart isTrailing text⟩ =
    .ok (String.ofList (dropTrailing isTrailing text.toList)) := by
  rw [lastRunStart_eq uniform_isTrailing]
  apply slice_of_shows (Cursor.in_start text)
  exact Cursor.shows_iff.mpr ⟨[], _, (dropTrailing_append_takeWhile isTrailing text.toList).symm, by
    simp [Cursor.start]⟩

/-- Byte by byte a line is trimmed to what it is trimmed to character by character. -/
theorem significantLine?_eq {source : String} {line : SourceLine}
    (shows : (Cursor.start source.toList).Shows line.span line.text) :
    significantLine? source line.span = .ok (if line.trimStart.isSilent then none
      else some ⟨line.trimStart.offset, String.ofList line.trimStart.trimEnd.text⟩) := by
  let raw := String.ofList line.text
  let trimmed := String.ofList line.trimStart.text
  have lead : skipBlanks raw 0 = byteLength (line.text.takeWhile isBlank) := by
    rw [skipBlanks_zero, String.toList_ofList]
  have front : slice raw ⟨skipBlanks raw 0, raw.utf8ByteSize⟩ = .ok trimmed := by
    rw [slice_skipBlanks, String.toList_ofList]
    rfl
  have back : slice trimmed ⟨0, lastRunStart isTrailing trimmed⟩ =
      .ok (String.ofList line.trimStart.trimEnd.text) := by
    rw [slice_lastRunStart, String.toList_ofList]
    rfl
  have here : (Cursor.start line.trimStart.text).In trimmed := Cursor.in_ofList _
  rw [significantLine?, slice_of_shows (Cursor.in_start source) shows, ok_bind]
  dsimp only
  rw [front, ok_bind]
  unfold SourceLine.isSilent
  cases whole : line.trimStart.text with
  | nil =>
    have ended : peek? trimmed 0 = none := here.peek?_eq_none_iff.mpr whole
    rw [ended]
    rfl
  | cons x rest =>
    obtain ⟨y, seen, same⟩ := here.exists_peek? whole
    change peek? trimmed 0 = some y at seen
    have mark : (y = '/' ∨ y = '#') = (x = '/' ∨ x = '#') :=
      same _ (uniform_either (by decide) (by decide))
    rw [seen]
    simp only [mark, Bool.or_eq_true, beq_iff_eq]
    split
    · rfl
    · rw [back, ok_bind, lead]
      rfl

/-- A line as it is cut out of an input. -/
def Piece.ofLine (line : SourceLine) : Piece :=
  ⟨line.offset, String.ofList line.text⟩

/-- Byte by byte an input says the lines that it says character by character. -/
theorem significantLines_eq (source : String) : significantLines source =
    .ok ((TreeDiagram.significantLines source.toList).map Piece.ofLine) := by
  let found : SourceLine → Option Piece := fun line =>
    if line.trimStart.isSilent then none else some (.ofLine line.trimStart.trimEnd)
  have lines : (lineSpans source 0).mapM (significantLine? source) =
      .ok ((splitLines 0 source.toList).map found) := by
    rw [lineSpans_eq (Cursor.in_start source), mapM_eq_ok, List.forall₂_map_left_iff,
      List.forall₂_map_right_iff, List.forall₂_same]
    exact fun line member => significantLine?_eq (splitLines_shows line member)
  have said : (splitLines 0 source.toList).filterMap found =
      (TreeDiagram.significantLines source.toList).map Piece.ofLine := by
    rw [TreeDiagram.significantLines_eq, List.map_map, ← List.filterMap_eq_map,
      List.filterMap_filter]
    congr 1
    funext line
    cases silent : line.trimStart.isSilent <;> simp [found, silent]
  rw [significantLines, lines, ok_bind, List.filterMap_map, ← said]
  rfl

/-! ## The first line -/

theorem utf8Size_of_lowercase {x : Char} (one : (lowercase x).utf8Size = 1) : x.utf8Size = 1 := by
  unfold lowercase at one
  split at one
  · next capital => exact utf8Size_of_le (Char.le_trans capital.2 (by decide))
  · exact one

/-- The start marker takes as many bytes as it has letters, whichever case they are of. -/
theorem passes_startMarker {cs : List Char}
    (marked : (cs.take startMarker.toList.length).map lowercase = startMarker.toList) :
    (Cursor.start cs).Passes (cs.take startMarker.toList.length)
      ⟨startMarker.utf8ByteSize, cs.drop startMarker.toList.length⟩ := by
  have letters : startMarker.toList.all (fun x => x.utf8Size == 1) = true := by decide
  have small : ∀ x ∈ startMarker.toList, x.utf8Size = 1 :=
    fun x member => beq_iff_eq.mp (List.all_eq_true.mp letters x member)
  have one : ∀ x ∈ cs.take startMarker.toList.length, x.utf8Size = 1 := by
    intro x member
    apply utf8Size_of_lowercase
    apply small
    rw [← marked]
    exact List.mem_map_of_mem member
  have length := congrArg List.length marked
  rw [List.length_map] at length
  refine ⟨(List.take_append_drop _ cs).symm, ?_⟩
  rw [byteLength_eq_length one, length, ← byteLength_toList, byteLength_eq_length small]
  exact (Nat.zero_add _).symm

/-- A span that fits in a text from its start on shows the first characters of the text. -/
theorem exists_append_of_fitsIn {text : String} {n : Nat} (fits : Span.FitsIn ⟨0, n⟩ text) :
    ∃ front behind, text.toList = front ++ behind ∧ byteLength front = n := by
  obtain ⟨front, behind, rfl, place⟩ :=
    String.Pos.Raw.isValid_iff_exists_append.mp fits.stopsAtChar
  refine ⟨front.toList, behind.toList, String.toList_append, ?_⟩
  rw [byteLength_toList]
  exact (congrArg String.Pos.Raw.byteIdx place).symm

/-- The bytes of a line begin with the start marker if its characters do. -/
theorem startMarker_iff (line : String) :
    Span.FitsIn ⟨0, startMarker.utf8ByteSize⟩ line ∧
        ((Span.mk 0 startMarker.utf8ByteSize).piece line).toList.map lowercase =
          startMarker.toList ↔
      (line.toList.take startMarker.toList.length).map lowercase = startMarker.toList := by
  constructor
  · rintro ⟨fits, marked⟩
    obtain ⟨front, behind, whole, size⟩ := exists_append_of_fitsIn fits
    have shows : (Cursor.start line.toList).Shows ⟨0, startMarker.utf8ByteSize⟩ front :=
      Cursor.shows_iff.mpr ⟨[], behind, whole, by simp [Cursor.start, size]⟩
    have piece : (Span.mk 0 startMarker.utf8ByteSize).piece line = String.ofList front :=
      shows.cuts.slice
    rw [piece, String.toList_ofList] at marked
    have length := congrArg List.length marked
    rw [List.length_map] at length
    rw [whole, ← length, List.take_left]
    exact marked
  · intro marked
    have shows := (passes_startMarker marked).shows
    have piece : (Span.mk 0 startMarker.utf8ByteSize).piece line =
        String.ofList (line.toList.take startMarker.toList.length) := shows.cuts.slice
    refine ⟨fitsIn_of_cuts shows.cuts, ?_⟩
    rw [piece, String.toList_ofList]
    exact marked

/-- Behind the letters of the marker a cursor passes blanks and the sign. -/
theorem afterStartMarker?_eq (line : List Char) : afterStartMarker? line =
    if (line.take startMarker.toList.length).map lowercase = startMarker.toList then
      ((Cursor.start (line.drop startMarker.toList.length)).skipBlanks.eat? '=').map Cursor.rest
    else none := by
  rw [afterStartMarker?]
  congr 1
  change _ = (Cursor.eat? '=' ⟨_, (line.drop startMarker.toList.length).dropWhile isBlank⟩).map _
  unfold Cursor.eat?
  cases (line.drop startMarker.toList.length).dropWhile isBlank with
  | nil => rfl
  | cons x rest =>
    by_cases sign : x = '='
    · subst sign
      rfl
    · dsimp only
      rw [if_neg (Ne.symm sign)]
      split
      · next same => exact absurd (List.cons.inj same).1 sign
      · rfl

theorem behindStartMarker?_eq (line : String) : behindStartMarker? line =
    .ok ((afterStartMarker? line.toList).map fun rest => line.utf8ByteSize - byteLength rest) := by
  unfold behindStartMarker?
  rw [afterStartMarker?_eq]
  dsimp only
  by_cases marked : (line.toList.take startMarker.toList.length).map lowercase = startMarker.toList
  · have front := passes_startMarker marked
    rw [if_pos ((startMarker_iff line).mpr marked), if_pos marked,
      slice_rest ((Cursor.in_start line).of_passes front), ok_bind]
    dsimp only
    generalize line.toList.drop startMarker.toList.length = behind
    let rest := String.ofList behind
    have here : (Cursor.start behind).In rest := Cursor.in_ofList behind
    have sign := here.skipBlanks
    have place : skipBlanks rest 0 = (Cursor.start behind).skipBlanks.pos := skipBlanks_eq here
    rw [place, sign.eat?_eq (by decide)]
    cases eaten : (Cursor.start behind).skipBlanks.eat? '=' with
    | none => rfl
    | some next =>
      rw [Option.map_some]
      dsimp only
      rw [slice_rest (sign.of_eat? eaten), ok_bind,
        utf8ByteSize_ofList]
      rfl
  · rw [if_neg (fun begins => marked ((startMarker_iff line).mp begins)), if_neg marked]
    rfl

section Reading

variable {K : Type} [Scalar K]

theorem readStart_eq (styling : Styling) (line : SourceLine) :
    readStart (K := K) styling (.ofLine line) =
      (Document.readStart styling line).mapError .rejected := by
  let text := String.ofList line.text
  have chars : text.toList = line.text := String.toList_ofList
  have size : text.utf8ByteSize = byteLength line.text := utf8ByteSize_ofList line.text
  have marker := behindStartMarker?_eq text
  rw [chars, size] at marker
  change behindStartMarker? text >>= _ = _
  rw [marker, Document.readStart]
  cases marked : afterStartMarker? line.text with
  | none =>
    rw [← size]
    rfl
  | some rest =>
    obtain ⟨front, whole⟩ := exists_marker_append marked
    have width : byteLength line.text - byteLength rest = byteLength front := by
      rw [whole, byteLength_append, Nat.add_sub_cancel]
    have across : (Cursor.start text.toList).Passes front ⟨byteLength front, rest⟩ :=
      ⟨chars.trans whole, (Nat.zero_add _).symm⟩
    have cut : slice text ⟨byteLength front, text.utf8ByteSize⟩ = .ok (String.ofList rest) :=
      slice_rest ((Cursor.in_start text).of_passes across)
    simp only [Option.map_some, ok_bind, width]
    change slice text ⟨byteLength front, text.utf8ByteSize⟩ >>= _ = _
    rw [cut, ok_bind, parse_eq, String.toList_ofList]
    cases TreeDescription.parse (K := K) rest <;> rfl

theorem applyLine_eq (s : Styling) (line : String) :
    applyLine s line = (s.applyLine line.toList).mapError .rejected := by
  rw [applyLine, Styling.applyLine, scanLine_eq, byteLength_toList]
  cases TreeDiagram.scanLine line.toList with
  | error e => rfl
  | ok scanned =>
    rw [ok_bind, Except.mapError, ok_bind]
    cases s.commit line.utf8ByteSize scanned <;> rfl

omit [Scalar K] in
theorem readProperties_eq (d : Document K) (line : SourceLine) :
    readProperties d (.ofLine line) = (d.readProperties line).mapError .rejected := by
  change (applyLine d.styling (String.ofList line.text)).mapError _ >>= _ = _
  rw [applyLine_eq, String.toList_ofList, Document.readProperties]
  cases d.styling.applyLine line.text <;> rfl

omit [Scalar K] in
theorem foldlM_readProperties_eq (d : Document K) (lines : List SourceLine) :
    (lines.map Piece.ofLine).foldlM readProperties d =
      (lines.foldlM Document.readProperties d).mapError .rejected := by
  induction lines generalizing d with
  | nil => rfl
  | cons line later ih =>
    rw [List.map_cons, List.foldlM_cons, List.foldlM_cons, readProperties_eq]
    cases d.readProperties line with
    | error e => rfl
    | ok next => exact ih next

/-- Byte by byte an input is read as it is read character by character. -/
theorem read_eq (styling : Styling) (source : String) :
    read (K := K) styling source = (Document.read styling source).mapError .rejected := by
  rw [read, significantLines_eq, ok_bind, Document.read]
  cases TreeDiagram.significantLines source.toList with
  | nil => rfl
  | cons first later =>
    change readStart styling (.ofLine first) >>= _ =
      (Document.readStart styling first >>= _).mapError _
    rw [readStart_eq]
    cases Document.readStart (K := K) styling first with
    | error e => rfl
    | ok d => exact foldlM_readProperties_eq d later

end Reading

end Bytewise

end TreeDiagram
