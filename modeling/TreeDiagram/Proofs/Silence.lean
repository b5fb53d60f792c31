import TreeDiagram.Proofs.Relocation
/-!
# Comments and blank lines

A line that says nothing may be put between any two lines of an input, or in front of them or behind
them: the outcome stays the same, and so do all places but those behind it, which move by its bytes
and that of its end of line.
-/

namespace TreeDiagram

/-- The lines of an input into which a line is put behind an end of line, or at the beginning. -/
theorem exists_splitOn_insert {front : List Char} (raw back : List Char)
    (whole : front = [] ∨ ∃ before, front = before ++ ['\n']) (one : '\n' ∉ raw) :
    ∃ lines, linesLength lines = byteLength front ∧
      (front ++ back).splitOn '\n' = lines ++ back.splitOn '\n' ∧
      (front ++ (raw ++ '\n' :: back)).splitOn '\n' = lines ++ raw :: back.splitOn '\n' := by
  have inserted : (raw ++ '\n' :: back).splitOn '\n' = raw :: back.splitOn '\n' :=
    List.splitOn_append_cons_self_of_not_mem one back
  rcases whole with rfl | ⟨before, rfl⟩
  · exact ⟨[], rfl, rfl, inserted⟩
  · refine ⟨before.splitOn '\n', ?_, ?_, ?_⟩
    · rw [linesLength_splitOn, byteLength_append]
      rfl
    · rw [List.append_assoc, List.singleton_append, List.splitOn_append_cons_self]
    · rw [List.append_assoc, List.singleton_append, List.splitOn_append_cons_self, inserted]

/-- A line that says nothing moves the lines behind it, and has no other effect. -/
theorem significantLines_insert_silent {front raw : List Char} (back : List Char)
    (whole : front = [] ∨ ∃ before, front = before ++ ['\n']) (one : '\n' ∉ raw)
    (silent : SaysNothing raw) :
    List.Forall₂ (SourceLine.MovedBy (Span.makeRoom (byteLength front) (byteLength raw + 1)))
        (significantLines (front ++ back))
        (significantLines (front ++ (raw ++ '\n' :: back))) ∧
      ∀ line ∈ significantLines (front ++ back),
        line.span.stop < byteLength front ∨ byteLength front ≤ line.span.start := by
  obtain ⟨lines, length, split, split'⟩ := exists_splitOn_insert raw back whole one
  obtain ⟨before, behind, said, said', -, inFront, later⟩ := significantLines_insert split split'
  rw [significantAmong_of_saysNothing silent, List.nil_append] at said'
  rw [length] at inFront later
  rw [said, said']
  constructor
  · exact List.rel_append (SourceLine.forall₂_movedBy_self inFront)
      (SourceLine.forall₂_movedBy_shift later)
  · intro line member
    rcases List.mem_append.mp member with member | member
    · exact .inl (inFront line member)
    · exact .inr (later line member)

namespace Session

variable {K : Type} [Scalar K]

theorem parse_of_silent {source : String} (silent : significantLines source.toList = [])
    (factors : LayoutFactors K) (sheet : Stylesheet) (capacity : Nat) :
    parse source factors sheet capacity = .error (.parse ⟨.startTokenMissing, ⟨0, 0⟩⟩) := by
  rw [parse, Document.read, silent]
  rfl

/-- A blank line or a comment, put in at the beginning of an input or behind one of its ends of
line, does not change the outcome. What is reported of the text behind it is reported as many bytes
later as were put in, and no place that is reported lies on both sides of it. An input without any
line that says something is rejected at its beginning, whatever comments it has. -/
theorem parse_insert_silent (front raw back : String)
    (whole : front = "" ∨ ∃ before, front = before ++ "\n") (one : '\n' ∉ raw.toList)
    (silent : SaysNothing raw.toList) (factors : LayoutFactors K) (sheet : Stylesheet)
    (capacity : Nat) :
    (significantLines (front ++ back).toList ≠ [] →
      parse (front ++ raw ++ "\n" ++ back) factors sheet capacity =
        relocated (Span.makeRoom front.utf8ByteSize (raw.utf8ByteSize + 1)) 0
          (parse (front ++ back) factors sheet capacity)) ∧
    (significantLines (front ++ back).toList = [] →
      parse (front ++ back) factors sheet capacity =
          .error (.parse ⟨.startTokenMissing, ⟨0, 0⟩⟩) ∧
        parse (front ++ raw ++ "\n" ++ back) factors sheet capacity =
          .error (.parse ⟨.startTokenMissing, ⟨0, 0⟩⟩)) ∧
    (∀ e, parse (front ++ back) factors sheet capacity = .error (.parse e) →
      e.span.stop < front.utf8ByteSize ∨ front.utf8ByteSize ≤ e.span.start) ∧
    ∀ s, parse (front ++ back) factors sheet capacity = .ok s → ∀ d ∈ s.diagnostics,
      d.span.stop < front.utf8ByteSize ∨ front.utf8ByteSize ≤ d.span.start := by
  have together : (front ++ back).toList = front.toList ++ back.toList := String.toList_append
  have apart : (front ++ raw ++ "\n" ++ back).toList =
      front.toList ++ (raw.toList ++ '\n' :: back.toList) := by
    simp [String.toList_append]
  have whole' : front.toList = [] ∨ ∃ before, front.toList = before ++ ['\n'] := by
    rcases whole with rfl | ⟨before, rfl⟩
    · exact .inl rfl
    · exact .inr ⟨before.toList, String.toList_append⟩
  obtain ⟨moved, beside⟩ := significantLines_insert_silent back.toList whole' one silent
  rw [byteLength_toList, byteLength_toList, ← together, ← apart] at moved
  rw [byteLength_toList, ← together] at beside
  refine ⟨?_, ?_, ?_, ?_⟩
  · intro some
    exact parse_relocated (Document.readLines_relocated moved some) factors
  · intro none
    refine ⟨parse_of_silent none factors sheet capacity, ?_⟩
    rw [none, List.forall₂_nil_left_iff] at moved
    exact parse_of_silent moved factors sheet capacity
  · intro e failed
    by_cases none : significantLines (front ++ back).toList = []
    · rw [parse_of_silent none factors sheet capacity] at failed
      cases failed
      exact (Nat.eq_zero_or_pos front.utf8ByteSize).symm.imp_right Nat.le_of_eq
    · obtain ⟨line, member, inside⟩ :=
        Document.exists_line_of_read (read_of_parse_error failed) none
      have side := beside line member
      omega
  · intro s parsed d member
    obtain ⟨line, inSource, inside⟩ :=
      Document.exists_line_of_warning (parse_eq_ok parsed).1 member
    have side := beside line inSource
    omega

/-- A comment in front of the line that is warned of, with a carriage return and a letter of two
bytes. -/
theorem parse_insert_silent_comment : ∃ s : Session Rat,
    parse ("bitree = A(B,C)\n" ++ "\r # \u00e9" ++ "\n" ++ "1[FontSize=14, FillColor=2];\n") =
        .ok s ∧
      s.diagnostics = [⟨⟨25, 36⟩, 1, .fontSize⟩] := by
  have one : '\n' ∉ "\r # \u00e9".toList := by decide +kernel
  have silent : SaysNothing "\r # \u00e9".toList := by decide +kernel
  have some : significantLines misscoped.toList ≠ [] := by decide +kernel
  have width : "\r # \u00e9".utf8ByteSize = 6 := by decide +kernel
  have place : "bitree = A(B,C)\n".utf8ByteSize = 16 := by decide +kernel
  obtain ⟨s, parsed, warned⟩ := exists_parse_misscoped
  have moved := (parse_insert_silent (K := Rat) "bitree = A(B,C)\n" "\r # \u00e9"
    "1[FontSize=14, FillColor=2];\n" (.inr ⟨"bitree = A(B,C)", rfl⟩) one silent {} {}
    maxNodeId).1 some
  rw [width, place] at moved
  refine ⟨s.relocate (Span.makeRoom 16 7) 0, ?_, ?_⟩
  · rw [moved, show parse ("bitree = A(B,C)\n" ++ "1[FontSize=14, FillColor=2];\n") = .ok s
      from parsed]
    rfl
  · change s.diagnostics.map (Diagnostic.relocate (Span.makeRoom 16 7)) = _
    rw [warned]
    rfl

end Session

end TreeDiagram
