import TreeDiagram.Text.Lines
import TreeDiagram.Proofs.Text.Places
/-!
# The places of lines

Every line that says something stands in the input at the byte that it names, and the lines come in
the order in which they stand.
-/

namespace TreeDiagram

/-- The bytes that the text of a line takes. -/
def SourceLine.span (line : SourceLine) : Span :=
  ⟨line.offset, line.offset + byteLength line.text⟩

/-- Of two lines the first one ends before the second one begins. -/
def SourceLine.Before (line later : SourceLine) : Prop :=
  line.span.stop ≤ later.span.start

/-- A line ends with the text or at an end of line. -/
theorem eq_newline_of_dropWhile {cs behind : List Char} {mark : Char}
    (rest : cs.dropWhile (· != '\n') = mark :: behind) : mark = '\n' := by
  have stops := List.head?_dropWhile_not (· != '\n') cs
  rw [rest] at stops
  simpa using stops

theorem splitLines_shows {offset : Nat} {cs : List Char} :
    ∀ line ∈ splitLines offset cs, (Cursor.mk offset cs).Shows line.span line.text := by
  fun_induction splitLines offset cs with
  | case1 offset cs line all =>
    intro found member
    rw [List.mem_singleton.mp member]
    have whole : cs = line := by
      rw [← List.takeWhile_append_dropWhile (p := (· != '\n')) (l := cs), all, List.append_nil]
    exact Cursor.shows_iff.mpr ⟨[], [], by simp [← whole], rfl⟩
  | case2 offset cs line mark behind rest shorter ih =>
    have whole : cs = line ++ mark :: behind := by
      rw [← rest]
      exact List.takeWhile_append_dropWhile.symm
    have isEnd := eq_newline_of_dropWhile rest
    intro found member
    rcases List.mem_cons.mp member with rfl | later
    · exact Cursor.shows_iff.mpr ⟨[], mark :: behind, whole, rfl⟩
    · have passed : (Cursor.mk offset cs).Passes (line ++ [mark])
          ⟨offset + byteLength line + 1, behind⟩ := by
        constructor
        · rw [whole, List.append_assoc]
          rfl
        · rw [isEnd, byteLength_append, ← Nat.add_assoc]
          rfl
      exact (ih found later).of_passes passed

theorem offset_le_of_mem_splitLines {offset : Nat} {cs : List Char} {line : SourceLine}
    (member : line ∈ splitLines offset cs) : offset ≤ line.offset :=
  (splitLines_shows line member).bounds.1

theorem pairwise_splitLines (offset : Nat) (cs : List Char) :
    (splitLines offset cs).Pairwise SourceLine.Before := by
  fun_induction splitLines offset cs with
  | case1 => exact List.pairwise_singleton _ _
  | case2 offset cs line mark behind rest shorter ih =>
    refine List.pairwise_cons.mpr ⟨?_, ih⟩
    intro later member
    exact Nat.le_trans (Nat.le_succ _) (offset_le_of_mem_splitLines member)

theorem newline_notMem_takeWhile (cs : List Char) : '\n' ∉ cs.takeWhile (· != '\n') := by
  intro member
  simpa using List.mem_takeWhile_imp member

/-- Texts as lines, each behind the bytes of those before it and of their ends of line. -/
def linesFrom : Nat → List (List Char) → List SourceLine
  | _, [] => []
  | offset, raw :: later => ⟨offset, raw⟩ :: linesFrom (offset + byteLength raw + 1) later

theorem map_text_linesFrom (offset : Nat) (raws : List (List Char)) :
    (linesFrom offset raws).map SourceLine.text = raws := by
  induction raws generalizing offset with
  | nil => rfl
  | cons raw later ih => rw [linesFrom, List.map_cons, ih]

/-- The lines of a text are the pieces between its ends of line. -/
theorem splitLines_eq (offset : Nat) (cs : List Char) :
    splitLines offset cs = linesFrom offset (cs.splitOn '\n') := by
  fun_induction splitLines offset cs with
  | case1 offset cs line all =>
    have inside : ∀ c ∈ cs, (c == '\n') = false := by
      simpa [List.dropWhile_eq_nil_iff] using all
    have whole : line = cs := by
      rw [← List.takeWhile_append_dropWhile (p := (· != '\n')) (l := cs), all, List.append_nil]
    rw [whole, List.splitOn, List.splitOnP_eq_singleton inside]
    rfl
  | case2 offset cs line mark behind rest shorter ih =>
    have whole : cs = line ++ mark :: behind := by
      rw [← rest]
      exact List.takeWhile_append_dropWhile.symm
    have isEnd : (mark == '\n') = true := beq_iff_eq.mpr (eq_newline_of_dropWhile rest)
    have inside : ∀ c ∈ line, (c == '\n') = false := by
      intro c member
      exact beq_false_of_ne (ne_of_mem_of_not_mem member (newline_notMem_takeWhile cs))
    rw [ih]
    conv_rhs => rw [whole, List.splitOn, List.splitOnP_append_cons_of_forall_mem inside _ isEnd]
    rfl

/-- The texts of the lines are what stands between the ends of line. -/
theorem map_text_splitLines (offset : Nat) (cs : List Char) :
    (splitLines offset cs).map SourceLine.text = cs.splitOn '\n' := by
  rw [splitLines_eq, map_text_linesFrom]

theorem newline_notMem_of_mem_splitLines {offset : Nat} {cs : List Char} {line : SourceLine}
    (member : line ∈ splitLines offset cs) : '\n' ∉ line.text := by
  fun_induction splitLines offset cs with
  | case1 offset cs text all =>
    rw [List.mem_singleton.mp member]
    exact newline_notMem_takeWhile cs
  | case2 offset cs text mark behind rest shorter ih =>
    rcases List.mem_cons.mp member with rfl | later
    · exact newline_notMem_takeWhile cs
    · exact ih later

/-- What is dropped at the end of a text is a run of the class. -/
theorem dropTrailing_append_takeWhile (p : Char → Bool) (cs : List Char) :
    dropTrailing p cs ++ (cs.reverse.takeWhile p).reverse = cs := by
  rw [dropTrailing, ← List.reverse_append, List.takeWhile_append_dropWhile, List.reverse_reverse]

namespace SourceLine

theorem shows_trimStart (line : SourceLine) :
    (Cursor.mk line.offset line.text).Shows line.trimStart.span line.trimStart.text := by
  refine Cursor.shows_iff.mpr ⟨line.text.takeWhile isBlank, [], ?_, rfl⟩
  rw [List.append_nil]
  exact List.takeWhile_append_dropWhile.symm

theorem shows_trimEnd (line : SourceLine) :
    (Cursor.mk line.offset line.text).Shows line.trimEnd.span line.trimEnd.text :=
  Cursor.shows_iff.mpr ⟨[], _, (dropTrailing_append_takeWhile isTrailing line.text).symm, rfl⟩

theorem shows_trimmed (line : SourceLine) :
    (Cursor.mk line.offset line.text).Shows line.trimStart.trimEnd.span
      line.trimStart.trimEnd.text :=
  line.shows_trimStart.trans line.trimStart.shows_trimEnd

/-- Trimming does not change the order of lines. -/
theorem Before.trimmed {line later : SourceLine} (h : line.Before later) :
    line.trimStart.trimEnd.Before later.trimStart.trimEnd :=
  Nat.le_trans line.shows_trimmed.bounds.2 (Nat.le_trans h later.shows_trimmed.bounds.1)

end SourceLine

theorem significantLines_eq (source : List Char) : significantLines source =
    ((splitLines 0 source).filter fun line => !line.trimStart.isSilent).map
      fun line => line.trimStart.trimEnd := by
  rw [significantLines, List.filter_map, List.map_map]
  rfl

theorem significantLines_shows {source : List Char} :
    ∀ line ∈ significantLines source, (Cursor.start source).Shows line.span line.text := by
  intro line member
  rw [significantLines_eq] at member
  obtain ⟨raw, inSource, rfl⟩ := List.mem_map.mp member
  exact (splitLines_shows raw (List.mem_of_mem_filter inSource)).trans raw.shows_trimmed

theorem pairwise_significantLines (source : List Char) :
    (significantLines source).Pairwise SourceLine.Before := by
  rw [significantLines_eq, List.pairwise_map]
  have order := (pairwise_splitLines 0 source).filter fun line => !line.trimStart.isSilent
  exact order.imp SourceLine.Before.trimmed

end TreeDiagram
