import Mathlib.Data.List.Chain
import TreeDiagram.Proofs.Description.Grammar
import TreeDiagram.Proofs.Text.Letter
/-!
# Written descriptions

The words of a derivation can be written with any blanks before, between and behind them. Reading
such a text word by word gives the words back: two labels never come one after the other, so no
label runs into the next.
-/

namespace TreeDiagram

/-- The characters of a word. -/
def Token.text : Token → List Char
  | leftParen => ['(']
  | rightParen => [')']
  | comma => [',']
  | label text => text.toList

/-- A label that can be written: it is not empty, not too long, and made of letters, digits and
underscores. -/
structure Writable (label : String) : Prop where
  notEmpty : label.toList ≠ []
  letters : ∀ c ∈ label.toList, isLabelChar c
  short : label.toList.length ≤ maxLabelLength

/-- The texts in which words stand one after the other with blanks around them. -/
inductive Spaced : List Token → List Char → Prop
  | finish {blanks : List Char} (skipped : ∀ c ∈ blanks, isBlank c) : Spaced [] blanks
  | word {blanks cs : List Char} {token : Token} {tokens : List Token}
      (skipped : ∀ c ∈ blanks, isBlank c) (rest : Spaced tokens cs) :
      Spaced (token :: tokens) (blanks ++ (token.text ++ cs))

/-- No label comes right behind another one. -/
def LabelsApart : List Token → Prop :=
  List.IsChain fun before behind => before.symbol = .label → behind.symbol ≠ .label

theorem isBlank_eq_false {c : Char} (inLabel : isLabelChar c) : isBlank c = false := by
  rw [isLabelChar, Bool.or_eq_true, beq_iff_eq] at inLabel
  rcases inLabel with letter | rfl
  · exact isBlank_of_isAlphanumeric letter
  · rfl

theorem punctuation_eq_none {c : Char} (inLabel : isLabelChar c) : punctuation? c = none := by
  have other {mark : Char} (notInLabel : isLabelChar mark = false) : c ≠ mark := by
    rintro rfl
    simp [inLabel] at notInLabel
  have opening : c ≠ '(' := other rfl
  have closing : c ≠ ')' := other rfl
  have comma : c ≠ ',' := other rfl
  simp [punctuation?, opening, closing, comma]

theorem lexFrom_blanks {blanks : List Char} (skipped : ∀ c ∈ blanks, isBlank c) (pos : Nat)
    (cs : List Char) (read : List Lexeme) :
    lexFrom pos (blanks ++ cs) read = lexFrom (pos + blanks.length) cs read := by
  induction blanks generalizing pos with
  | nil => rfl
  | cons c blanks ih =>
    have first : isBlank c = true := skipped c (by simp)
    rw [List.cons_append, lexFrom, if_pos first, ih fun d member => skipped d (by simp [member])]
    rw [List.length_cons, Nat.add_right_comm, Nat.add_assoc]

theorem lexFrom_punctuation {c : Char} {token : Token} (mark : punctuation? c = some token)
    (visible : isBlank c = false) (pos : Nat) (cs : List Char) (read : List Lexeme) :
    lexFrom pos (c :: cs) read = lexFrom (pos + 1) cs (⟨token, ⟨pos, pos + 1⟩⟩ :: read) := by
  rw [lexFrom, if_neg (by simp [visible]), mark]

theorem lexFrom_label {label : String} (writable : Writable label) (pos : Nat) {cs : List Char}
    (ends : ∀ c, cs.head? = some c → isLabelChar c = false) (read : List Lexeme) :
    ∃ stop, lexFrom pos (label.toList ++ cs) read =
      lexFrom stop cs (⟨.label label, ⟨pos, stop⟩⟩ :: read) := by
  obtain ⟨c, text, whole⟩ := List.exists_cons_of_ne_nil writable.notEmpty
  have letters := writable.letters
  have short := writable.short
  rw [whole] at letters short
  have first : isLabelChar c = true := letters c (by simp)
  have others : ∀ d ∈ text, isLabelChar d := fun d member => letters d (by simp [member])
  have nothing : cs.takeWhile isLabelChar = [] ∧ cs.dropWhile isLabelChar = cs := by
    cases cs with
    | nil => simp
    | cons d cs => simp [ends d rfl]
  have taken : (text ++ cs).takeWhile isLabelChar = text := by
    rw [List.takeWhile_append_of_pos others, nothing.1, List.append_nil]
  have left : (text ++ cs).dropWhile isLabelChar = cs := by
    rw [List.dropWhile_append_of_pos others, nothing.2]
  refine ⟨pos + (c :: text).length, ?_⟩
  rw [whole, List.cons_append, lexFrom, if_neg (by simp [isBlank_eq_false first]),
    punctuation_eq_none first]
  simp only [first, if_true, taken, left]
  rw [if_neg (Nat.not_lt.mpr short), ← whole, String.ofList_toList]

theorem Spaced.head_not_letter {tokens : List Token} {cs : List Char} (spaced : Spaced tokens cs)
    (notLabel : ∀ token, tokens.head? = some token → token.symbol ≠ .label) :
    ∀ c, cs.head? = some c → isLabelChar c = false := by
  have blank {c : Char} (skipped : isBlank c) : isLabelChar c = false := by
    by_contra inLabel
    simp [isBlank_eq_false (Bool.not_eq_false _ ▸ inLabel)] at skipped
  intro c first
  cases spaced with
  | finish skipped => exact blank (skipped c (List.mem_of_head? first))
  | @word blanks cs token tokens skipped rest =>
    cases blanks with
    | cons d blanks =>
      cases first
      exact blank (skipped c (by simp))
    | nil =>
      have here := notLabel token rfl
      cases token with
      | label text => exact absurd rfl here
      | leftParen => cases first; rfl
      | rightParen => cases first; rfl
      | comma => cases first; rfl

/-- Words that are written with blanks around them are read back. -/
theorem lexFrom_spaced {tokens : List Token} {cs : List Char} (spaced : Spaced tokens cs)
    (writable : ∀ label, Token.label label ∈ tokens → Writable label) (apart : LabelsApart tokens)
    (pos : Nat) (read : List Lexeme) :
    ∃ words, lexFrom pos cs read = .ok words ∧
      words.map Lexeme.token = read.reverse.map Lexeme.token ++ tokens := by
  induction spaced generalizing pos read with
  | @finish blanks skipped =>
    refine ⟨read.reverse, ?_, by simp⟩
    have skip := lexFrom_blanks skipped pos [] read
    rw [List.append_nil] at skip
    rw [skip, lexFrom]
  | @word blanks cs token tokens skipped rest ih =>
    have later : ∀ label, Token.label label ∈ tokens → Writable label :=
      fun label member => writable label (by simp [member])
    rw [lexFrom_blanks skipped]
    -- whatever the word is, what follows it is read by the same words behind it
    have finish (stop : Nat) (span : Span) : ∃ words,
        lexFrom stop cs (⟨token, span⟩ :: read) = .ok words ∧
          words.map Lexeme.token = read.reverse.map Lexeme.token ++ token :: tokens := by
      obtain ⟨words, done, same⟩ := ih later apart.tail stop (⟨token, span⟩ :: read)
      exact ⟨words, done, by simpa using same⟩
    have mark {c : Char} (text : token.text = [c]) (isMark : punctuation? c = some token)
        (visible : isBlank c = false) : ∃ words,
        lexFrom (pos + blanks.length) (token.text ++ cs) read = .ok words ∧
          words.map Lexeme.token = read.reverse.map Lexeme.token ++ token :: tokens := by
      rw [text, List.singleton_append, lexFrom_punctuation isMark visible]
      exact finish _ _
    cases token with
    | leftParen => exact mark rfl rfl rfl
    | rightParen => exact mark rfl rfl rfl
    | comma => exact mark rfl rfl rfl
    | label text =>
      have ends := rest.head_not_letter fun next isNext => by
        have pair := List.isChain_cons.mp apart
        exact pair.1 next isNext rfl
      obtain ⟨stop, step⟩ :=
        lexFrom_label (writable text (by simp)) (pos + blanks.length) ends read
      rw [Token.text, step]
      exact finish _ _

namespace TreeDescription.Derivation

theorem labelsApart_words (d : Derivation) : LabelsApart d.words := by
  have opening : Token.leftParen.symbol ≠ .label := by decide
  have comma : Token.comma.symbol ≠ .label := by decide
  have closing : Token.rightParen.symbol ≠ .label := by decide
  induction d with
  | leaf label => simp [LabelsApart, words]
  | branch label l r ihl ihr =>
    unfold LabelsApart at *
    simp [words, List.isChain_cons, List.isChain_append, ihl, ihr, opening, comma, closing]

theorem label_mem_words {d : Derivation} {label : String} :
    Token.label label ∈ d.words ↔ label ∈ d.labels := by
  induction d with
  | leaf own => simp [words, labels]
  | branch own l r ihl ihr => simp [words, labels, ihl, ihr]

end TreeDescription.Derivation

end TreeDiagram
