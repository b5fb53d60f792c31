import TreeDiagram.Proofs.Description.Words
import TreeDiagram.Proofs.Text.Bytes
import TreeDiagram.Proofs.Text.Pieces
/-!
# Splitting a text into words

The words of a text are its parentheses and commas and its maximal runs of label characters. An
offence is a character that belongs to no word and is no blank, or a maximal run that is too long
for a label. Reading goes from piece to piece, so it ends at the first offence, and without one it
finds just the words. Nothing but blanks stands between them.
-/

namespace TreeDiagram

/-- The place of a text that stands behind another one. -/
def Span.ofText (before text : List Char) : Span :=
  ⟨byteLength before, byteLength before + byteLength text⟩

/-- The characters that a description is made of. -/
def InAlphabet (c : Char) : Prop :=
  c ≤ ' ' ∨ c = '(' ∨ c = ')' ∨ c = ',' ∨ isLabelChar c = true

/-- A word that a text between two others is: a parenthesis or a comma, or a label that takes in all
label characters around it. -/
inductive WordAt (before text behind : List Char) : Lexeme → Prop
  | mark {token : Token} (alone : token.symbol ≠ .label) (written : token.text = text) :
      WordAt before text behind ⟨token, .ofText before text⟩
  | label (maximal : MaximalRun isLabelChar before text behind) :
      WordAt before text behind ⟨.label (String.ofList text), .ofText before text⟩

/-- What is wrong with a text between two others: it is a character outside the alphabet, or a run
of label characters that is too long. -/
inductive OffenceAt (before text behind : List Char) : ParseError → Prop
  | foreign {c : Char} (outside : ¬InAlphabet c) (written : text = [c]) :
      OffenceAt before text behind ⟨.lexical c, .ofText before text⟩
  | tooLong (maximal : MaximalRun isLabelChar before text behind)
      (long : maxLabelLength < byteLength text) :
      OffenceAt before text behind
        ⟨.tokenTooLong (byteLength text) maxLabelLength, .ofText before text⟩

/-- A word that stands in a text behind another text. -/
def HasWord (front cs : List Char) (w : Lexeme) : Prop :=
  Occurs (fun before text behind => WordAt before text behind w) front cs

/-- Something that is wrong in a text behind another text. -/
def HasOffence (front cs : List Char) (e : ParseError) : Prop :=
  Occurs (fun before text behind => OffenceAt before text behind e) front cs

variable {c : Char} {token : Token} {w : Lexeme} {e : ParseError}
  {before text behind front rest cs : List Char}

theorem Span.ofText_char (one : c.utf8Size = 1) :
    Span.ofText before [c] = ⟨byteLength before, byteLength before + 1⟩ := by
  simp [ofText, one]

/-! ## Characters -/

theorem punctuation?_eq_some_iff :
    punctuation? c = some token ↔ token.symbol ≠ .label ∧ token.text = [c] := by
  constructor
  · intro mark
    refine ⟨?_, (text_of_punctuation? mark).1⟩
    unfold punctuation? at mark
    split at mark
    · cases mark
      decide
    · split at mark
      · cases mark
        decide
      · split at mark
        · cases mark
          decide
        · cases mark
  · rintro ⟨alone, written⟩
    cases token with
    | label => exact absurd rfl alone
    | leftParen | rightParen | comma =>
      cases written
      rfl

theorem inAlphabet_iff : InAlphabet c ↔
    isBlank c = true ∨ (∃ token, punctuation? c = some token) ∨ isLabelChar c = true := by
  have marks : (∃ token, punctuation? c = some token) ↔ c = '(' ∨ c = ')' ∨ c = ',' := by
    unfold punctuation?
    split_ifs <;> simp_all
  rw [marks, InAlphabet, isBlank, decide_eq_true_iff]
  tauto

theorem notInLabel_of_isBlank (blank : isBlank c = true) : isLabelChar c = false := by
  by_contra inLabel
  rw [isBlank_eq_false (Bool.not_eq_false _ ▸ inLabel)] at blank
  cases blank

theorem visible_of_punctuation? (mark : punctuation? c = some token) : isBlank c = false := by
  have written := (text_of_punctuation? mark).1
  cases token with
  | label =>
    have alone := (punctuation?_eq_some_iff.mp mark).1
    exact absurd rfl alone
  | leftParen | rightParen | comma =>
    cases written
    rfl

theorem notInLabel_of_punctuation? (mark : punctuation? c = some token) :
    isLabelChar c = false := by
  by_contra inLabel
  rw [punctuation_eq_none (Bool.not_eq_false _ ▸ inLabel)] at mark
  cases mark

theorem notInLabel_of_not_inAlphabet (outside : ¬InAlphabet c) : isLabelChar c = false := by
  by_contra inLabel
  exact outside (inAlphabet_iff.mpr (.inr (.inr (Bool.not_eq_false _ ▸ inLabel))))

/-! ## Pieces -/

theorem WordAt.piece (word : WordAt before text behind w) :
    Piece isLabelChar before text behind := by
  cases word with
  | @mark token alone written =>
    cases token with
    | label => exact absurd rfl alone
    | leftParen | rightParen | comma =>
      cases written
      exact .single rfl behind
  | label maximal => exact .run maximal

theorem OffenceAt.piece (offence : OffenceAt before text behind e) :
    Piece isLabelChar before text behind := by
  cases offence with
  | foreign outside written =>
    rw [written]
    exact .single (notInLabel_of_not_inAlphabet outside) behind
  | tooLong maximal => exact .run maximal

theorem wordAt_blank_iff (blank : isBlank c = true) (w : Lexeme) :
    WordAt before [c] behind w ↔ w ∈ [] := by
  constructor
  · intro word
    cases word with
    | mark alone written =>
      rw [visible_of_punctuation? (punctuation?_eq_some_iff.mpr ⟨alone, written⟩)] at blank
      cases blank
    | label maximal => exact absurd rfl (maximal.not_single (notInLabel_of_isBlank blank))
  · intro impossible
    cases impossible

theorem wordAt_mark_iff (mark : punctuation? c = some token) (w : Lexeme) :
    WordAt before [c] behind w ↔ w ∈ [⟨token, byteLength before, byteLength before + 1⟩] := by
  rw [List.mem_singleton, ← Span.ofText_char (text_of_punctuation? mark).2]
  constructor
  · intro word
    cases word with
    | mark alone written =>
      rw [punctuation?_eq_some_iff.mpr ⟨alone, written⟩] at mark
      cases mark
      rfl
    | label maximal => exact absurd rfl (maximal.not_single (notInLabel_of_punctuation? mark))
  · rintro rfl
    obtain ⟨alone, written⟩ := punctuation?_eq_some_iff.mp mark
    exact .mark alone written

theorem wordAt_run_iff (maximal : MaximalRun isLabelChar before text behind) (w : Lexeme) :
    WordAt before text behind w ↔ w ∈ [⟨.label (String.ofList text), .ofText before text⟩] := by
  rw [List.mem_singleton]
  constructor
  · intro word
    cases word with
    | @mark token alone written =>
      cases token with
      | label => exact absurd rfl alone
      | leftParen | rightParen | comma => exact absurd written.symm (maximal.not_single rfl)
    | label => rfl
  · rintro rfl
    exact .label maximal

theorem not_offenceAt_single (inside : InAlphabet c) (outside : isLabelChar c = false) :
    ¬OffenceAt before [c] behind e := by
  intro offence
  cases offence with
  | foreign foreign written =>
    cases written
    exact foreign inside
  | tooLong maximal => exact maximal.not_single outside rfl

theorem not_offenceAt_blank (blank : isBlank c = true) (e : ParseError) :
    ¬OffenceAt before [c] behind e :=
  not_offenceAt_single (inAlphabet_iff.mpr (.inl blank)) (notInLabel_of_isBlank blank)

theorem not_offenceAt_mark (mark : punctuation? c = some token) (e : ParseError) :
    ¬OffenceAt before [c] behind e :=
  not_offenceAt_single (inAlphabet_iff.mpr (.inr (.inl ⟨token, mark⟩)))
    (notInLabel_of_punctuation? mark)

theorem not_offenceAt_short (maximal : MaximalRun isLabelChar before text behind)
    (short : ¬maxLabelLength < byteLength text) (e : ParseError) :
    ¬OffenceAt before text behind e := by
  intro offence
  cases offence with
  | foreign outside written =>
    exact maximal.not_single (notInLabel_of_not_inAlphabet outside) written
  | tooLong _ long => exact short long

theorem OffenceAt.span (offence : OffenceAt before text behind e) :
    e.span = .ofText before text := by
  cases offence <;> rfl

theorem OffenceAt.unique {e' : ParseError} (offence : OffenceAt before text behind e)
    (offence' : OffenceAt before text behind e') : e = e' := by
  cases offence with
  | foreign outside written =>
    cases offence' with
    | foreign outside' written' =>
      cases written.symm.trans written'
      rfl
    | tooLong maximal =>
      exact absurd written (maximal.not_single (notInLabel_of_not_inAlphabet outside))
  | tooLong maximal =>
    cases offence' with
    | foreign outside' written' =>
      exact absurd written' (maximal.not_single (notInLabel_of_not_inAlphabet outside'))
    | tooLong => rfl

/-! ## Reading -/

/-- A text without an offence, and its words. -/
structure Splits (front cs : List Char) (words : List Lexeme) : Prop where
  mem_iff : ∀ w, w ∈ words ↔ HasWord front cs w
  clean : ∀ e, ¬HasOffence front cs e

/-- An offence in a text with none before it. -/
structure FirstOffence (front cs : List Char) (e : ParseError) : Prop where
  has : HasOffence front cs e
  leftmost : ∀ e', HasOffence front cs e' → e.span.start ≤ e'.span.start

theorem HasOffence.append_iff (piece : Piece isLabelChar front text rest) :
    HasOffence front (text ++ rest) e ↔
      OffenceAt front text rest e ∨ HasOffence (front ++ text) rest e :=
  Occurs.append_iff OffenceAt.piece piece

theorem HasOffence.le_start (offence : HasOffence front cs e) :
    byteLength front ≤ e.span.start := by
  obtain ⟨skipped, text, behind, -, here⟩ := offence
  rw [here.span, Span.ofText, byteLength_append]
  exact Nat.le_add_right _ _

theorem Splits.nil : Splits front [] [] where
  mem_iff w := by
    constructor
    · intro member
      cases member
    · intro word
      exact absurd word (Occurs.not_nil WordAt.piece)
  clean e := Occurs.not_nil OffenceAt.piece

/-- The words of a text are what its first piece is and those behind that. -/
theorem Splits.append {here later : List Lexeme} (piece : Piece isLabelChar front text rest)
    (isHere : ∀ w, WordAt front text rest w ↔ w ∈ here) (clean : ∀ e, ¬OffenceAt front text rest e)
    (splits : Splits (front ++ text) rest later) : Splits front (text ++ rest) (here ++ later) where
  mem_iff w := by
    rw [List.mem_append, ← isHere w, splits.mem_iff w]
    exact (Occurs.append_iff WordAt.piece piece).symm
  clean e offence := by
    rcases (HasOffence.append_iff piece).mp offence with first | later
    · exact clean e first
    · exact splits.clean e later

theorem FirstOffence.here (piece : Piece isLabelChar front text rest)
    (offence : OffenceAt front text rest e) : FirstOffence front (text ++ rest) e where
  has := (HasOffence.append_iff piece).mpr (.inl offence)
  leftmost e' offence' := by
    rw [offence.span]
    exact offence'.le_start

theorem FirstOffence.append (piece : Piece isLabelChar front text rest)
    (clean : ∀ e, ¬OffenceAt front text rest e) (first : FirstOffence (front ++ text) rest e) :
    FirstOffence front (text ++ rest) e where
  has := (HasOffence.append_iff piece).mpr (.inr first.has)
  leftmost e' offence := by
    rcases (HasOffence.append_iff piece).mp offence with here | later
    · exact absurd here (clean e')
    · exact first.leftmost e' later

/-- There is one first offence in a text. -/
theorem FirstOffence.unique {e' : ParseError} (first : FirstOffence front cs e)
    (first' : FirstOffence front cs e') : e = e' := by
  obtain ⟨skipped, text, behind, rfl, here⟩ := first.has
  obtain ⟨skipped', text', behind', whole, here'⟩ := first'.has
  have start := Nat.le_antisymm (first.leftmost e' first'.has) (first'.leftmost e first.has)
  rw [here.span, here'.span] at start
  obtain ⟨moved, same⟩ := append_inj_of_byteLength
    (show (front ++ skipped) ++ (text ++ behind) = (front ++ skipped') ++ (text' ++ behind') by
      rw [List.append_assoc, whole, ← List.append_assoc]) start
  rw [← moved] at here'
  obtain ⟨rfl, rfl⟩ := here.piece.unique here'.piece same
  exact here.unique here'

theorem append_dropWhile (c : Char) (rest : List Char) :
    c :: rest.takeWhile isLabelChar ++ rest.dropWhile isLabelChar = c :: rest := by
  rw [List.cons_append, List.takeWhile_append_dropWhile]

theorem maximalRun_of_apart (apart : Apart isLabelChar front (c :: rest))
    (inLabel : isLabelChar c = true) : MaximalRun isLabelChar front
      (c :: rest.takeWhile isLabelChar) (rest.dropWhile isLabelChar) where
  inside d member := by
    rcases List.mem_cons.mp member with rfl | later
    · exact inLabel
    · exact List.mem_takeWhile_imp later
  ends := (isRun_takeWhile isLabelChar rest).ends
  notEmpty := List.cons_ne_nil _ _
  begins d last := by
    by_contra inside
    rw [apart d c last rfl (Bool.not_eq_false _ ▸ inside)] at inLabel
    cases inLabel

variable {read words : List Lexeme}

/-- What is read of a text are its words, and it has no offence. -/
theorem splits_of_lexFrom {pos : Nat} (h : lexFrom pos cs read = .ok words) :
    ∀ front, pos = byteLength front → Apart isLabelChar front cs →
      ∃ new, words = read.reverse ++ new ∧ Splits front cs new := by
  fun_induction lexFrom pos cs read with
  | case1 pos read =>
    rintro front - -
    cases h
    exact ⟨[], by simp, .nil⟩
  | case2 pos read c rest blank ih =>
    rintro front rfl -
    have piece : Piece isLabelChar front [c] rest := .single (notInLabel_of_isBlank blank) rest
    obtain ⟨new, split, splits⟩ := ih h _ (by simp [utf8Size_of_isBlank blank]) piece.apart
    exact ⟨new, split, .append piece (wordAt_blank_iff blank) (not_offenceAt_blank blank) splits⟩
  | case3 pos read c rest visible token mark ih =>
    rintro front rfl -
    have piece : Piece isLabelChar front [c] rest := .single (notInLabel_of_punctuation? mark) rest
    have one := (text_of_punctuation? mark).2
    obtain ⟨new, split, splits⟩ := ih h _ (by simp [one]) piece.apart
    refine ⟨⟨token, ⟨byteLength front, byteLength front + 1⟩⟩ :: new, by rw [split]; simp, ?_⟩
    exact .append piece (wordAt_mark_iff mark) (not_offenceAt_mark mark) splits
  | case4 => cases h
  | case5 pos read c rest visible noMark inLabel text stop fits ih =>
    rintro front rfl apart
    have maximal := maximalRun_of_apart apart inLabel
    have piece : Piece isLabelChar front text (rest.dropWhile isLabelChar) := .run maximal
    have length : byteLength text = text.length := (passes_label inLabel 0 rest).2
    obtain ⟨new, split, splits⟩ := ih h _ (by rw [byteLength_append, length]) piece.apart
    refine ⟨⟨.label (String.ofList text), .ofText front text⟩ :: new, ?_, ?_⟩
    · rw [split, Span.ofText, length]
      simp [stop]
    · rw [← append_dropWhile c rest]
      have short : ¬maxLabelLength < byteLength text := by rwa [length]
      exact .append piece (wordAt_run_iff maximal) (not_offenceAt_short maximal short) splits
  | case6 => cases h

/-- What ends the reading of a text is the first offence in it. -/
theorem firstOffence_of_lexFrom {pos : Nat} (h : lexFrom pos cs read = .error e) :
    ∀ front, pos = byteLength front → Apart isLabelChar front cs → FirstOffence front cs e := by
  fun_induction lexFrom pos cs read with
  | case1 => cases h
  | case2 pos read c rest blank ih =>
    rintro front rfl -
    have piece : Piece isLabelChar front [c] rest := .single (notInLabel_of_isBlank blank) rest
    have later := ih h _ (by simp [utf8Size_of_isBlank blank]) piece.apart
    exact .append piece (not_offenceAt_blank blank) later
  | case3 pos read c rest visible token mark ih =>
    rintro front rfl -
    have piece : Piece isLabelChar front [c] rest := .single (notInLabel_of_punctuation? mark) rest
    have later := ih h _ (by simp [(text_of_punctuation? mark).2]) piece.apart
    exact .append piece (not_offenceAt_mark mark) later
  | case4 pos read c rest visible noMark inLabel text stop long =>
    rintro front rfl apart
    have maximal := maximalRun_of_apart apart inLabel
    have length : byteLength text = text.length := (passes_label inLabel 0 rest).2
    cases h
    rw [← append_dropWhile c rest]
    refine .here (.run maximal) ?_
    have offence := OffenceAt.tooLong maximal (length ▸ long)
    rwa [Span.ofText, length] at offence
  | case5 pos read c rest visible noMark inLabel text stop fits ih =>
    rintro front rfl apart
    have maximal := maximalRun_of_apart apart inLabel
    have piece : Piece isLabelChar front text (rest.dropWhile isLabelChar) := .run maximal
    have length : byteLength text = text.length := (passes_label inLabel 0 rest).2
    have later := ih h _ (by rw [byteLength_append, length]) piece.apart
    have short : ¬maxLabelLength < byteLength text := by rwa [length]
    rw [← append_dropWhile c rest]
    exact .append piece (not_offenceAt_short maximal short) later
  | case6 pos read c rest visible noMark notInLabel =>
    rintro front rfl -
    cases h
    have outside : ¬InAlphabet c := by
      rw [inAlphabet_iff, noMark]
      simp [visible, notInLabel]
    have offence : OffenceAt front [c] rest _ := .foreign outside rfl
    have piece : Piece isLabelChar front [c] rest := offence.piece
    have first := FirstOffence.here piece offence
    simpa [Span.ofText] using first

/-! ## Whole texts -/

theorem splits_of_lex (split : lex cs = .ok words) : Splits [] cs words := by
  obtain ⟨new, rfl, splits⟩ := splits_of_lexFrom split [] rfl (by intro c d last; cases last)
  exact splits

/-- A text is rejected for the first offence in it. -/
theorem lex_eq_error_iff : lex cs = .error e ↔ FirstOffence [] cs e := by
  have first {e : ParseError} (failed : lex cs = .error e) : FirstOffence [] cs e :=
    firstOffence_of_lexFrom failed [] rfl (by intro c d last; cases last)
  constructor
  · exact first
  · intro here
    cases read : lex cs with
    | ok words => exact absurd here.has ((splits_of_lex read).clean e)
    | error e' => rw [(first read).unique here]

theorem lex_eq_ok_iff : (∃ words, lex cs = .ok words) ↔ ∀ e, ¬HasOffence [] cs e := by
  constructor
  · rintro ⟨words, split⟩
    exact (splits_of_lex split).clean
  · intro clean
    cases read : lex cs with
    | ok words => exact ⟨words, rfl⟩
    | error e => exact absurd (lex_eq_error_iff.mp read).has (clean e)

/-- A text without an offence is one of the alphabet in which no run is too long for a label. -/
theorem forall_not_hasOffence_iff : (∀ e, ¬HasOffence [] cs e) ↔ (∀ c ∈ cs, InAlphabet c) ∧
    ∀ before run behind, cs = before ++ (run ++ behind) →
      MaximalRun isLabelChar before run behind → byteLength run ≤ maxLabelLength := by
  constructor
  · intro clean
    constructor
    · intro c member
      obtain ⟨before, behind, whole⟩ := List.append_of_mem member
      by_contra outside
      exact clean _ ⟨before, [c], behind, whole, .foreign outside rfl⟩
    · intro before run behind whole maximal
      by_contra long
      exact clean _ ⟨before, run, behind, whole, .tooLong maximal (Nat.lt_of_not_le long)⟩
  · rintro ⟨alphabet, short⟩ e ⟨before, text, behind, whole, offence⟩
    cases offence with
    | @foreign c outside written => exact outside (alphabet c (by simp [whole, written]))
    | tooLong maximal long =>
      exact absurd (short before text behind whole maximal) (Nat.not_le.mpr long)

theorem Piece.blank_or_found (piece : Piece isLabelChar before text behind) :
    (∃ c, text = [c] ∧ isBlank c = true) ∨ (∃ w, WordAt before text behind w) ∨
      ∃ e, OffenceAt before text behind e := by
  cases piece with
  | run maximal => exact .inr (.inl ⟨_, .label maximal⟩)
  | @single c outside =>
    by_cases inside : InAlphabet c
    · rcases inAlphabet_iff.mp inside with blank | ⟨token, mark⟩ | inLabel
      · exact .inl ⟨c, rfl, blank⟩
      · obtain ⟨alone, written⟩ := punctuation?_eq_some_iff.mp mark
        exact .inr (.inl ⟨_, .mark alone written⟩)
      · rw [outside] at inLabel
        cases inLabel
    · exact .inr (.inr ⟨_, .foreign inside rfl⟩)

theorem WordAt.span (word : WordAt before text behind w) : w.span = .ofText before text := by
  cases word <;> rfl

/-- A byte that is in none of the words of a text is one of a blank. -/
theorem byte_le_of_lex {source : String} (split : lex source.toList = .ok words) {i : Nat}
    {b : UInt8} (found : (bytes source)[i]? = some b)
    (outside : ∀ w ∈ words, ¬(w.span.start ≤ i ∧ i < w.span.stop)) : b ≤ 0x20 := by
  have splits := splits_of_lex split
  rw [bytes_eq] at found
  obtain ⟨before, c, behind, whole, start, stop, member⟩ := exists_char_of_getElem? found
  obtain ⟨front, text, rest, whole', piece, inText, starts, stops⟩ := Piece.exists_of_mem whole
  rcases piece.blank_or_found with ⟨d, written, blank⟩ | ⟨w, word⟩ | ⟨e, offence⟩
  · rw [written, List.mem_singleton] at inText
    subst inText
    exact byte_of_isBlank blank member
  · have inWords := (splits.mem_iff w).mpr ⟨front, text, rest, whole', word⟩
    refine absurd ?_ (outside w inWords)
    rw [word.span, Span.ofText]
    exact ⟨starts.trans start, stop.trans_le stops⟩
  · exact absurd ⟨front, text, rest, whole', offence⟩ (splits.clean e)

/-- A text is split if and only if it is one of the alphabet in which no run of label characters is
longer than 256 bytes. Its words then are its parentheses, its commas and its maximal runs of label
characters, one behind the other, each cut out by its span, with nothing but blanks around them. Any
other text is rejected for the offence in it that starts first. -/
theorem lex_longest_match (source : String) :
    ((∃ words, lex source.toList = .ok words) ↔ (∀ c ∈ source.toList, InAlphabet c) ∧
        ∀ before run behind, source.toList = before ++ (run ++ behind) →
          MaximalRun isLabelChar before run behind → byteLength run ≤ 256) ∧
      (∀ words, lex source.toList = .ok words →
        (∀ w, w ∈ words ↔ HasWord [] source.toList w) ∧ words.Pairwise Lexeme.Before ∧
          (∀ w ∈ words, w.span.start < w.span.stop ∧ w.span.Cuts source w.token.text) ∧
          ∀ i b, (bytes source)[i]? = some b →
            (∀ w ∈ words, ¬(w.span.start ≤ i ∧ i < w.span.stop)) → b ≤ 0x20) ∧
      ∀ e, lex source.toList = .error e ↔ FirstOffence [] source.toList e := by
  refine ⟨lex_eq_ok_iff.trans forall_not_hasOffence_iff, ?_, fun e => lex_eq_error_iff⟩
  intro words split
  refine ⟨(splits_of_lex split).mem_iff, pairwise_of_lex split, ?_,
    fun i b => byte_le_of_lex split⟩
  intro w member
  refine ⟨(proper_of_lex split w member).notEmpty, Cursor.Shows.cuts ?_⟩
  obtain ⟨new, rfl, shows⟩ := shows_of_lexFrom split
  exact shows w member

/-- Words with a blank between them, and a text that is rejected for the first of two characters. -/
theorem lex_longest_match_blank :
    (lex "ab (c".toList =
          .ok [⟨.label "ab", ⟨0, 2⟩⟩, ⟨.leftParen, ⟨3, 4⟩⟩, ⟨.label "c", ⟨4, 5⟩⟩] ∧
        HasWord [] "ab (c".toList ⟨.label "ab", ⟨0, 2⟩⟩ ∧
        (bytes "ab (c")[2]? = some 0x20 ∧ (0x20 : UInt8) ≤ 0x20) ∧
      FirstOffence [] "ab é;".toList ⟨.lexical 'é', ⟨3, 5⟩⟩ := by
  have split : lex "ab (c".toList =
      .ok [⟨.label "ab", ⟨0, 2⟩⟩, ⟨.leftParen, ⟨3, 4⟩⟩, ⟨.label "c", ⟨4, 5⟩⟩] := by
    decide +kernel
  have failed : lex "ab é;".toList = .error ⟨.lexical 'é', ⟨3, 5⟩⟩ := by
    decide +kernel
  have space : (bytes "ab (c")[2]? = some 0x20 := by decide +kernel
  obtain ⟨-, accepted, -⟩ := lex_longest_match "ab (c"
  obtain ⟨-, -, rejected⟩ := lex_longest_match "ab é;"
  obtain ⟨mem_iff, -, -, around⟩ := accepted _ split
  refine ⟨⟨split, (mem_iff _).mp List.mem_cons_self, space, ?_⟩, (rejected _).mp failed⟩
  exact around 2 0x20 space (by decide)

end TreeDiagram
