import TreeDiagram.Proofs.Text.Deletion
/-!
# Lines put into an input

A line that is put between the lines of an input moves those behind it by its own bytes and that of
an end of line. What they say stays the same. So the new line is the only difference, if it says
something.
-/

namespace TreeDiagram

/-- A line that is blank or a comment: its first character above the space, if it has one, is a
slash or a hash. -/
def SaysNothing (raw : List Char) : Prop :=
  ∀ c, raw.find? (fun c => decide (' ' < c)) = some c → c = '/' ∨ c = '#'

/-- The same text in an input in which `base` bytes more come first. -/
def SourceLine.shift (base : Nat) (line : SourceLine) : SourceLine :=
  { line with offset := line.offset + base }

/-- The bytes of lines with an end of line behind each. -/
def linesLength : List (List Char) → Nat
  | [] => 0
  | raw :: later => byteLength raw + 1 + linesLength later

/-- The place of a span in an input that has `width` bytes more at `place`. What stands in front of
these bytes stays. -/
def Span.makeRoom (place width : Nat) (s : Span) : Span :=
  if place ≤ s.start then s.shift width else s

/-- What lines say: those that say nothing are left out, and the others are trimmed. -/
def significantAmong (lines : List SourceLine) : List SourceLine :=
  (lines.filter fun line => !line.trimStart.isSilent).map fun line => line.trimStart.trimEnd

theorem isSilent_trimStart_iff (line : SourceLine) :
    line.trimStart.isSilent = true ↔ SaysNothing line.text := by
  have above : (fun c : Char => decide (' ' < c)) = fun c => !isBlank c := by
    funext c
    rw [isBlank, ← decide_not]
    exact decide_eq_decide.mpr Char.not_le.symm
  rw [SaysNothing, above, List.find?_eq_head?_dropWhile_not]
  simp only [Bool.not_not]
  rw [SourceLine.isSilent]
  simp only [SourceLine.trimStart]
  cases line.text.dropWhile isBlank with
  | nil => simp
  | cons c rest => simp

instance (raw : List Char) : Decidable (SaysNothing raw) :=
  decidable_of_iff _ (isSilent_trimStart_iff ⟨0, raw⟩)

/-! ## Lines behind each other -/

/-- The lines of a text take its bytes and those of one end of line more. -/
theorem linesLength_splitOn (cs : List Char) :
    linesLength (cs.splitOn '\n') = byteLength cs + 1 := by
  have joined (raw : List Char) (later : List (List Char)) :
      linesLength (raw :: later) = byteLength (['\n'].intercalate (raw :: later)) + 1 := by
    induction later generalizing raw with
    | nil => simp [linesLength, List.intercalate]
    | cons next later ih =>
      have mark : byteLength ['\n'] = 1 := rfl
      rw [linesLength, ih, List.intercalate_cons_cons, byteLength_append, byteLength_append, mark]
      omega
  cases pieces : cs.splitOn '\n' with
  | nil => exact absurd pieces (List.splitOn_ne_nil _ _)
  | cons raw later =>
    rw [joined, ← pieces, List.intercalate_splitOn]

theorem linesFrom_append (offset : Nat) (front back : List (List Char)) :
    linesFrom offset (front ++ back) =
      linesFrom offset front ++ linesFrom (offset + linesLength front) back := by
  induction front generalizing offset with
  | nil => rfl
  | cons raw front ih =>
    rw [List.cons_append, linesFrom, ih, linesFrom, List.cons_append, linesLength,
      ← Nat.add_assoc, ← Nat.add_assoc]

theorem linesFrom_add (offset base : Nat) (raws : List (List Char)) :
    linesFrom (offset + base) raws = (linesFrom offset raws).map (SourceLine.shift base) := by
  induction raws generalizing offset with
  | nil => rfl
  | cons raw later ih =>
    have next : offset + base + byteLength raw + 1 = offset + byteLength raw + 1 + base := by omega
    rw [linesFrom, next, ih, linesFrom, List.map_cons]
    rfl

theorem bounds_of_mem_linesFrom {offset : Nat} {raws : List (List Char)} {line : SourceLine}
    (member : line ∈ linesFrom offset raws) :
    offset ≤ line.span.start ∧ line.span.stop < offset + linesLength raws := by
  induction raws generalizing offset with
  | nil => cases member
  | cons raw later ih =>
    rw [linesLength]
    rcases List.mem_cons.mp member with rfl | member
    · simp only [SourceLine.span]
      omega
    · have inside := ih member
      omega

theorem significantAmong_append (front back : List SourceLine) :
    significantAmong (front ++ back) = significantAmong front ++ significantAmong back := by
  rw [significantAmong, List.filter_append, List.map_append]
  rfl

theorem significantAmong_shift (base : Nat) (lines : List SourceLine) :
    significantAmong (lines.map (SourceLine.shift base)) =
      (significantAmong lines).map (SourceLine.shift base) := by
  have trimmed (line : SourceLine) :
      (line.shift base).trimStart = line.trimStart.shift base := by
    simp only [SourceLine.trimStart, SourceLine.shift, SourceLine.mk.injEq, and_true]
    omega
  rw [significantAmong, List.filter_map, List.map_map, significantAmong, List.map_map]
  simp only [Function.comp_def, trimmed]
  rfl

theorem bounds_of_mem_significantAmong {offset : Nat} {raws : List (List Char)} {line : SourceLine}
    (member : line ∈ significantAmong (linesFrom offset raws)) :
    offset ≤ line.span.start ∧ line.span.stop < offset + linesLength raws := by
  obtain ⟨raw, inSource, rfl⟩ := List.mem_map.mp member
  have whole := bounds_of_mem_linesFrom (List.mem_of_mem_filter inSource)
  have inside := raw.shows_trimmed.bounds
  exact ⟨Nat.le_trans whole.1 inside.1, Nat.lt_of_le_of_lt inside.2 whole.2⟩

theorem significantLines_eq_among (source : List Char) :
    significantLines source = significantAmong (linesFrom 0 (source.splitOn '\n')) := by
  rw [significantLines_eq, splitLines_eq]
  rfl

/-! ## One line more -/

/-- The lines of an input into which a line was put are those in front of it, what it says itself,
and those behind it, moved. -/
theorem significantLines_insert {source source' : List Char} {front back : List (List Char)}
    {raw : List Char} (lines : source.splitOn '\n' = front ++ back)
    (lines' : source'.splitOn '\n' = front ++ raw :: back) : ∃ before behind,
      significantLines source = before ++ behind ∧
      significantLines source' = before ++ (significantAmong [⟨linesLength front, raw⟩] ++
        behind.map (SourceLine.shift (byteLength raw + 1))) ∧
      before = significantAmong (linesFrom 0 front) ∧
      (∀ line ∈ before, line.span.stop < linesLength front) ∧
      ∀ line ∈ behind, linesLength front ≤ line.span.start := by
  refine ⟨significantAmong (linesFrom 0 front),
    significantAmong (linesFrom (linesLength front) back), ?_, ?_, rfl, ?_, ?_⟩
  · rw [significantLines_eq_among, lines, linesFrom_append, significantAmong_append, Nat.zero_add]
  · have moved : linesFrom (linesLength front + byteLength raw + 1) back =
        (linesFrom (linesLength front) back).map (SourceLine.shift (byteLength raw + 1)) := by
      rw [← linesFrom_add, Nat.add_assoc]
    rw [significantLines_eq_among, lines', linesFrom_append, significantAmong_append, Nat.zero_add,
      linesFrom, moved, ← List.singleton_append, significantAmong_append, significantAmong_shift]
  · intro line member
    have bounds := bounds_of_mem_significantAmong member
    omega
  · intro line member
    exact (bounds_of_mem_significantAmong member).1

theorem significantAmong_of_saysNothing {raw : List Char} (silent : SaysNothing raw)
    (offset : Nat) : significantAmong [⟨offset, raw⟩] = [] := by
  have gone := (isSilent_trimStart_iff ⟨offset, raw⟩).mpr silent
  simp [significantAmong, gone]

theorem significantAmong_linesFrom_of_saysNothing {raws : List (List Char)}
    (silent : ∀ raw ∈ raws, SaysNothing raw) (offset : Nat) :
    significantAmong (linesFrom offset raws) = [] := by
  induction raws generalizing offset with
  | nil => rfl
  | cons raw later ih =>
    obtain ⟨first, others⟩ := List.forall_mem_cons.mp silent
    rw [linesFrom, ← List.singleton_append, significantAmong_append,
      significantAmong_of_saysNothing first, ih others, List.append_nil]

theorem significantAmong_of_speaks {raw : List Char} (speaks : ¬SaysNothing raw) (offset : Nat) :
    significantAmong [⟨offset, raw⟩] = [(SourceLine.mk offset raw).trimStart.trimEnd] := by
  rw [← isSilent_trimStart_iff ⟨offset, raw⟩] at speaks
  simp [significantAmong, speaks]

/-! ## Behind the start line -/

/-- The lines of an input up to the first one that says something. -/
def startFront (source : String) : List (List Char) :=
  let lines := source.toList.splitOn '\n'
  lines.takeWhile (fun raw => decide (SaysNothing raw)) ++
    (lines.dropWhile fun raw => decide (SaysNothing raw)).take 1

/-- The lines of an input behind the first one that says something. -/
def startBack (source : String) : List (List Char) :=
  ((source.toList.splitOn '\n').dropWhile fun raw => decide (SaysNothing raw)).drop 1

/-- The input with one line more, directly behind the first one that says something. -/
def insertBehindStart (source line : String) : String :=
  String.ofList (['\n'].intercalate (startFront source ++ line.toList :: startBack source))

theorem startFront_append_startBack (source : String) :
    startFront source ++ startBack source = source.toList.splitOn '\n' := by
  rw [startFront, startBack, List.append_assoc, List.take_append_drop,
    List.takeWhile_append_dropWhile]

theorem splitOn_insertBehindStart {source line : String} (one : '\n' ∉ line.toList) :
    (insertBehindStart source line).toList.splitOn '\n' =
      startFront source ++ line.toList :: startBack source := by
  rw [insertBehindStart, String.toList_ofList, List.splitOn_intercalate '\n' ?_ (by simp)]
  intro raw member
  rw [List.mem_append, List.mem_cons] at member
  have inSource (member : raw ∈ startFront source ++ startBack source) : '\n' ∉ raw := by
    rw [startFront_append_startBack] at member
    exact newline_notMem_of_mem_splitOn member
  rcases member with front | rfl | back
  · exact inSource (List.mem_append_left _ front)
  · exact one
  · exact inSource (List.mem_append_right _ back)

/-- Up to the start line only the start line says something. -/
theorem exists_significantAmong_startFront {source : String}
    (speaks : significantLines source.toList ≠ []) :
    ∃ first, significantAmong (linesFrom 0 (startFront source)) = [first] := by
  let lines := source.toList.splitOn '\n'
  have silent : ∀ raw ∈ lines.takeWhile fun raw => decide (SaysNothing raw), SaysNothing raw := by
    intro raw member
    have kept := List.mem_takeWhile_imp member
    exact of_decide_eq_true kept
  cases rest : lines.dropWhile fun raw => decide (SaysNothing raw) with
  | nil =>
    have all : ∀ raw ∈ lines, SaysNothing raw := by
      intro raw member
      exact of_decide_eq_true (List.dropWhile_eq_nil_iff.mp rest raw member)
    rw [significantLines_eq_among, significantAmong_linesFrom_of_saysNothing all] at speaks
    exact absurd rfl speaks
  | cons start back =>
    have begins : ¬SaysNothing start := by
      have stops := List.head?_dropWhile_not (fun raw => decide (SaysNothing raw)) lines
      rw [rest] at stops
      simpa using stops
    have front : startFront source =
        (lines.takeWhile fun raw => decide (SaysNothing raw)) ++ [start] := by
      change _ ++ (lines.dropWhile fun raw => decide (SaysNothing raw)).take 1 = _
      rw [rest]
      rfl
    rw [front, linesFrom_append, significantAmong_append,
      significantAmong_linesFrom_of_saysNothing silent, List.nil_append]
    exact ⟨_, significantAmong_of_speaks begins _⟩

/-- A line put behind the start line is the second one that says something, and the later ones
move. -/
theorem significantLines_insertBehindStart {source line : String}
    (speaks : significantLines source.toList ≠ []) (one : '\n' ∉ line.toList) :
    ∃ first behind, significantLines source.toList = first :: behind ∧
      significantLines (insertBehindStart source line).toList =
        first :: (significantAmong [⟨linesLength (startFront source), line.toList⟩] ++
          behind.map (SourceLine.shift (byteLength line.toList + 1))) ∧
      first.span.stop < linesLength (startFront source) ∧
      ∀ later ∈ behind, linesLength (startFront source) ≤ later.span.start := by
  obtain ⟨before, behind, said, said', front, inFront, later⟩ := significantLines_insert
    (startFront_append_startBack source).symm (splitOn_insertBehindStart one)
  obtain ⟨first, only⟩ := exists_significantAmong_startFront speaks
  rw [only] at front
  subst front
  exact ⟨first, behind, said, said', inFront first List.mem_cons_self, later⟩

end TreeDiagram
