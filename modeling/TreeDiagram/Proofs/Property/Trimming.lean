import TreeDiagram.Proofs.Document
import TreeDiagram.Proofs.Property.Acceptance
/-!
# Trimmed property lines

A property line is freed of blanks, slashes, semicolons and commas behind it before it is scanned.
In a line that is accepted these are characters behind the closing bracket, or blanks behind the
number of a node, and what is left of them is still something that may stand there. So an input is
read as it would be if its property lines were not trimmed at their ends.
-/

namespace TreeDiagram

/-! ## Texts without their ends -/

section DropTrailing

variable {p : Char → Bool}

theorem dropTrailing_of_all {cs : List Char} (all : ∀ c ∈ cs, p c = true) :
    dropTrailing p cs = [] := by
  rw [dropTrailing, List.reverse_eq_nil_iff, List.dropWhile_eq_nil_iff]
  intro c member
  exact all c (List.mem_reverse.mp member)

/-- Of two texts the first one loses something only if nothing is left of the second. -/
theorem dropTrailing_append (as bs : List Char) : dropTrailing p (as ++ bs) =
    if dropTrailing p bs = [] then dropTrailing p as else as ++ dropTrailing p bs := by
  simp only [dropTrailing, List.reverse_append, List.dropWhile_append, List.isEmpty_iff,
    List.reverse_eq_nil_iff]
  split
  · rfl
  · rw [List.reverse_append, List.reverse_reverse]

theorem dropTrailing_concat (as : List Char) {x : Char} (stays : p x = false) :
    dropTrailing p (as ++ [x]) = as ++ [x] := by
  simp [dropTrailing, stays]

/-- Nothing is dropped in front of a character that is not of the class. -/
theorem dropTrailing_append_cons (as bs : List Char) {x : Char} (stays : p x = false) :
    dropTrailing p (as ++ x :: bs) = as ++ x :: dropTrailing p bs := by
  rw [List.append_cons, dropTrailing_append, dropTrailing_concat as stays]
  split
  · next nothing => rw [nothing]
  · rw [List.append_assoc, List.singleton_append]

/-- A text of which something is left keeps its first character. -/
theorem exists_dropTrailing_cons {x : Char} {cs : List Char}
    (some_ : ¬∀ c ∈ x :: cs, p c = true) : ∃ cs', dropTrailing p (x :: cs) = x :: cs' := by
  rw [← List.singleton_append, dropTrailing_append]
  split
  · next nothing =>
    have all : ∀ c ∈ cs, p c = true := by
      intro c member
      rw [dropTrailing, List.reverse_eq_nil_iff, List.dropWhile_eq_nil_iff] at nothing
      exact nothing c (List.mem_reverse.mpr member)
    have stays : p x = false := by
      rw [List.forall_mem_cons, not_and_or] at some_
      exact Bool.eq_false_of_not_eq_true (some_.resolve_right (not_not_intro all))
    exact ⟨[], dropTrailing_concat [] stays⟩
  · exact ⟨_, rfl⟩

end DropTrailing

theorem isTrailing_of_isBlank {c : Char} (blank : isBlank c = true) : isTrailing c = true := by
  simp [isTrailing, blank]

theorem isTrailing_of_isDigit {c : Char} (digit : isDigit c = true) : isTrailing c = false := by
  have visible := isBlank_of_isAlphanumeric (isAlphanumeric_of_isDigit digit)
  have other : ∀ x : Char, isDigit x = false → (c == x) = false := by
    intro x notDigit
    refine beq_eq_false_iff_ne.mpr ?_
    rintro rfl
    exact absurd digit (by rw [notDigit]; decide)
  simp [isTrailing, visible, other '/' rfl, other ';' rfl, other ',' rfl]

theorem Gap.isTrailing {gap : List Char} (isGap : Gap gap) :
    ∀ c ∈ gap, TreeDiagram.isTrailing c = true := by
  cases isGap with
  | blanks blank => exact fun c member => isTrailing_of_isBlank (blank c member)
  | separator blank mark blank' =>
    intro c member
    rcases List.mem_append.mp member with first | later
    · exact isTrailing_of_isBlank (blank c first)
    · rcases List.mem_cons.mp later with rfl | last
      · rcases mark with rfl | rfl <;> rfl
      · exact isTrailing_of_isBlank (blank' c last)

/-! ## Phrases of the grammar in front of another text -/

theorem IsRun.of_head {p : Char → Bool} {run behind behind' : List Char} (h : IsRun p run behind)
    (same : behind'.head? = behind.head?) : IsRun p run behind' where
  inside := h.inside
  ends c first := h.ends c (same ▸ first)

theorem head?_append_cons (as : List Char) (x : Char) (bs bs' : List Char) :
    (as ++ x :: bs).head? = (as ++ x :: bs').head? := by
  cases as <;> rfl

namespace Line

theorem ValueText.of_head {rule : Rule} {raw written behind behind' : List Char}
    (value : ValueText rule raw written behind) (same : behind'.head? = behind.head?) :
    ValueText rule raw written behind' := by
  cases value with
  | decimal notEmpty run => exact .decimal notEmpty (run.of_head same)
  | hexadecimal isMark notEmpty run => exact .hexadecimal isMark notEmpty (run.of_head same)
  | quoted inside => exact .quoted inside
  | bare notEmpty run => exact .bare notEmpty (run.of_head same)

theorem PairText.of_head {p : Property} {v : Value} {written behind behind' : List Char}
    (pair : PairText p v written behind) (same : behind'.head? = behind.head?) :
    PairText p v written behind' := by
  cases pair with
  | intro blank blank' value short means admits =>
    exact .intro blank blank' (value.of_head same) short means admits

theorem NodeText.of_head {id : NodeId} {digits behind behind' : List Char}
    (node : NodeText id digits behind) (same : behind'.head? = behind.head?) :
    NodeText id digits behind' :=
  { node with run := node.run.of_head same }

/-- What the pairs of a line say does not depend on what stands behind the closing bracket. -/
theorem PairsText.exists_inside {pos : Nat} {pairs : List Assignment} {text tail : List Char}
    (h : PairsText pos pairs text tail) : ∃ inside, text = inside ++ ']' :: tail ∧
      ∀ tail', PairsText pos pairs (inside ++ ']' :: tail') tail' := by
  induction h with
  | @last pos p v blanks written gap tail blank pair isGap =>
    refine ⟨blanks ++ (written ++ gap), by simp only [List.append_assoc], ?_⟩
    intro tail'
    simp only [List.append_assoc]
    exact .last blank (pair.of_head (head?_append_cons gap _ _ _)) isGap
  | @more pos p v pairs blanks written gap text tail blank pair isGap rest ih =>
    obtain ⟨inside, rfl, further⟩ := ih
    refine ⟨blanks ++ (written ++ (gap ++ inside)), by simp only [List.append_assoc], ?_⟩
    intro tail'
    have pair' : PairText p v written (gap ++ (inside ++ ']' :: tail')) := by
      rw [← List.append_assoc] at pair ⊢
      exact pair.of_head (head?_append_cons (gap ++ inside) _ _ _)
    simp only [List.append_assoc]
    exact .more blank pair' isGap (further tail')

/-! ## Lines -/

/-- What is left of the tail of a line when it is trimmed is the tail of a line. -/
theorem TailText.trimmed {tail : List Char} (h : TailText tail) :
    TailText (dropTrailing isTrailing tail) := by
  have empty : TailText [] := .nothing (.blanks blanks_nil)
  cases h with
  | nothing isGap =>
    rw [dropTrailing_of_all isGap.isTrailing]
    exact empty
  | @comment gap text mark isGap isMark =>
    by_cases all : ∀ c ∈ mark :: text, isTrailing c = true
    · rw [dropTrailing_of_all (List.forall_mem_append.mpr ⟨isGap.isTrailing, all⟩)]
      exact empty
    · obtain ⟨text', kept⟩ := exists_dropTrailing_cons all
      rw [dropTrailing_append, kept, if_neg (List.cons_ne_nil _ _)]
      exact .comment isGap isMark

/-- A trimmed line says what the line says: it is cut behind its closing bracket, or behind the
number of its node if it has no bracket. -/
theorem LineText.trimmed {scope : LineScope} {pairs : List Assignment} {line : List Char}
    (h : LineText scope pairs line) : LineText scope pairs (dropTrailing isTrailing line) := by
  have cut : ∀ front tail, dropTrailing isTrailing (front ++ ']' :: tail) =
      front ++ ']' :: dropTrailing isTrailing tail :=
    fun front tail => dropTrailing_append_cons front tail rfl
  cases h with
  | @number id blanks digits blanks' blank node blank' =>
    have dropped : dropTrailing isTrailing blanks' = [] :=
      dropTrailing_of_all fun c member => isTrailing_of_isBlank (blank' c member)
    have kept : dropTrailing isTrailing (blanks ++ digits) = blanks ++ digits := by
      rw [← List.dropLast_append_getLast node.notEmpty, ← List.append_assoc]
      apply dropTrailing_concat
      exact isTrailing_of_isDigit (node.run.inside _ (List.getLast_mem node.notEmpty))
    have alone : NodeText id digits [] :=
      { node with run := ⟨node.run.inside, fun c first => nomatch first⟩ }
    rw [← List.append_assoc, dropTrailing_append, if_pos dropped, kept, ← List.append_nil digits]
    exact .number blank alone blanks_nil
  | @node id pairs blanks digits blanks' text tail blank node blank' inside ends =>
    obtain ⟨text, rfl, further⟩ := inside.exists_inside
    have node' : NodeText id digits
        (blanks' ++ '[' :: (text ++ ']' :: dropTrailing isTrailing tail)) :=
      node.of_head (head?_append_cons blanks' _ _ _)
    have whole := cut (blanks ++ (digits ++ (blanks' ++ '[' :: text))) tail
    simp only [List.append_assoc, List.cons_append] at whole
    rw [whole]
    exact .node blank node' blank' (further _) ends.trimmed
  | @whole pairs blanks text tail blank inside ends =>
    obtain ⟨text, rfl, further⟩ := inside.exists_inside
    have whole := cut (blanks ++ '[' :: text) tail
    simp only [List.append_assoc, List.cons_append] at whole
    rw [whole]
    exact .whole blank (further _) ends.trimmed

end Line

theorem scanLine_of_trimmed {line : List Char} {scanned : ScannedLine}
    (accepted : scanLine line = .ok scanned) :
    scanLine (dropTrailing isTrailing line) = .ok scanned := by
  obtain ⟨scope, pairs, said, same⟩ := scanLine_eq_ok_iff.mp accepted
  exact scanLine_eq_ok_iff.mpr ⟨scope, pairs, said.trimmed, same⟩

/-- How long a line is matters only where the table does not take it. -/
theorem Styling.commit_of_length {s next : Styling} {length : Nat} {scanned : ScannedLine}
    (done : s.commit length scanned = .ok next) (length' : Nat) :
    s.commit length' scanned = .ok next := by
  unfold commit at done ⊢
  split at done
  · exact done
  · next id scope =>
    split at done
    · next none_ =>
      rw [if_pos none_]
      exact done
    · next some_ =>
      rw [if_neg some_]
      cases merged : s.table.merge id (scanned.assignments.map Assignment.entry) with
      | ok table =>
        rw [merged] at done
        exact done
      | error e =>
        rw [merged] at done
        cases done

namespace Document

variable {K : Type}

theorem readProperties_trimEnd {d next : Document K} {line : SourceLine}
    (done : readProperties d line = .ok next) : readProperties d line.trimEnd = .ok next := by
  obtain ⟨scanned, after, accepted, taken, rfl⟩ := readProperties_eq_ok.mp done
  exact readProperties_eq_ok.mpr
    ⟨scanned, after, scanLine_of_trimmed accepted, Styling.commit_of_length taken _, rfl⟩

theorem foldlM_readProperties_trimEnd {d last : Document K} {lines : List SourceLine}
    (done : lines.foldlM readProperties d = .ok last) :
    (lines.map SourceLine.trimEnd).foldlM readProperties d = .ok last := by
  induction lines generalizing d with
  | nil => exact done
  | cons line later ih =>
    rw [List.foldlM_cons] at done
    obtain ⟨next, first, rest⟩ := bind_eq_ok.mp done
    rw [List.map_cons, List.foldlM_cons]
    exact bind_eq_ok.mpr ⟨next, readProperties_trimEnd first, ih rest⟩

end Document

/-- The lines of an input that say something, with all that stands behind their texts. -/
def untrimmedLines (source : List Char) : List SourceLine :=
  ((splitLines 0 source).map SourceLine.trimStart).filter fun line => !line.isSilent

/-- An accepted line without the blanks, slashes, semicolons and commas at its end is accepted and
says the same, at the same places. So an input that is read if the property lines behind its start
line are not trimmed is read, with the same outcome, as it is. -/
theorem trimming_changes_nothing {K : Type} [Scalar K] :
    (∀ line scanned, scanLine line = .ok scanned →
      scanLine (dropTrailing isTrailing line) = .ok scanned) ∧
    ∀ (source : String) (styling : Styling) (start : SourceLine) (later : List SourceLine)
      (d : Document K), untrimmedLines source.toList = start :: later →
      Document.readLines styling (start.trimEnd :: later) = .ok d →
      Document.read styling source = .ok d := by
  refine ⟨fun line scanned => scanLine_of_trimmed, ?_⟩
  intro source styling start later d lines done
  have trimmed : significantLines source.toList =
      start.trimEnd :: later.map SourceLine.trimEnd := by
    rw [significantLines, ← untrimmedLines, lines, List.map_cons]
  rw [Document.read, trimmed]
  obtain ⟨first, begun, rest⟩ := bind_eq_ok.mp done
  exact bind_eq_ok.mpr ⟨first, begun, Document.foldlM_readProperties_trimEnd rest⟩

/-- An input with a separator and a comment behind a closing bracket. -/
def commented : String :=
  "bitree = A(B,C)\n5[NodeRadius=4; FontSize=12] ; // ,;\n"

theorem trimming_changes_nothing_comment :
    (scanLine "5[NodeRadius=4; FontSize=12] ; // ,;".toList =
        .ok ⟨.node 5, [⟨.nodeRadius, .number 4, ⟨2, 14⟩⟩], [⟨⟨16, 27⟩, 5, .fontSize⟩]⟩ ∧
      scanLine "5[NodeRadius=4; FontSize=12]".toList =
        .ok ⟨.node 5, [⟨.nodeRadius, .number 4, ⟨2, 14⟩⟩], [⟨⟨16, 27⟩, 5, .fontSize⟩]⟩) ∧
    ∃ d : Document Rat,
      Document.readLines {} [⟨0, "bitree = A(B,C)".toList⟩,
          ⟨16, "5[NodeRadius=4; FontSize=12] ; // ,;".toList⟩] = .ok d ∧
        Document.read {} commented = .ok d ∧ d.diagnostics = [⟨⟨32, 43⟩, 5, .fontSize⟩] := by
  obtain ⟨alone, whole⟩ := trimming_changes_nothing (K := Rat)
  constructor
  · have accepted : scanLine "5[NodeRadius=4; FontSize=12] ; // ,;".toList =
        .ok ⟨.node 5, [⟨.nodeRadius, .number 4, ⟨2, 14⟩⟩], [⟨⟨16, 27⟩, 5, .fontSize⟩]⟩ := by
      decide +kernel
    have trimmed : dropTrailing isTrailing "5[NodeRadius=4; FontSize=12] ; // ,;".toList =
        "5[NodeRadius=4; FontSize=12]".toList := by decide +kernel
    have kept := alone _ _ accepted
    rw [trimmed] at kept
    exact ⟨accepted, kept⟩
  · let tree : TreeDescription.Derivation := .branch "A" (.leaf "B") (.leaf "C")
    have lines : untrimmedLines commented.toList = [⟨0, "bitree = A(B,C)".toList⟩,
        ⟨16, "5[NodeRadius=4; FontSize=12] ; // ,;".toList⟩] := by decide +kernel
    have marked : afterStartMarker? "bitree = A(B,C)".toList = some " A(B,C)".toList := by
      decide +kernel
    have words : (lex " A(B,C)".toList).toOption.map (List.map Lexeme.token) =
        some tree.words := by decide +kernel
    have start : Document.readStart (K := Rat) {} ⟨0, "bitree = A(B,C)".toList⟩ =
        .ok { description := tree.description, styling := {} } :=
      Document.readStart_of_derivation marked words
    have warned : ([⟨16, "5[NodeRadius=4; FontSize=12] ; // ,;".toList⟩].foldlM
        Document.readProperties ({ description := tree.description, styling := {} } :
          Document Rat)).toOption.map Document.diagnostics =
        some [⟨⟨32, 43⟩, 5, .fontSize⟩] := by decide +kernel
    obtain ⟨d, read, diagnostics⟩ := toOption_map_eq_some.mp warned
    have done : Document.readLines {} [⟨0, "bitree = A(B,C)".toList⟩,
        ⟨16, "5[NodeRadius=4; FontSize=12] ; // ,;".toList⟩] = .ok d :=
      bind_eq_ok.mpr ⟨_, start, read⟩
    exact ⟨d, done, whole commented {} _ _ d lines done, diagnostics⟩

end TreeDiagram
