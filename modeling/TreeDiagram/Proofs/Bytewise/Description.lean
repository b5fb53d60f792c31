import TreeDiagram.Bytewise.Description
import TreeDiagram.Proofs.Bytewise.Basic
import TreeDiagram.Proofs.Description.Offence
/-!
# Tree descriptions read byte by byte

A word is made of characters of one byte, so it ends between characters. Where a byte begins no
word, the bytes behind it that only go on with a character are those of the same character.
-/

namespace TreeDiagram

namespace Bytewise

variable {c : Cursor} {text : String}

/-! ## Classes of bytes -/

theorem isContinuation_byteChar (b : UInt8) :
    isContinuation (byteChar b) = true ↔ 128 ≤ b.toNat ∧ b.toNat < 192 := by
  simp only [isContinuation, Bool.and_eq_true, decide_eq_true_eq, Char.le_def, Char.lt_def,
    UInt32.le_iff_toNat_le, UInt32.lt_iff_toNat_lt]
  change 128 ≤ (byteChar b).toNat ∧ (byteChar b).toNat < 192 ↔ _
  rw [toNat_byteChar]

/-- The first byte of a character begins one, and all others only go on with it. -/
theorem exists_utf8EncodeChar_eq (x : Char) : ∃ b bs, String.utf8EncodeChar x = b :: bs ∧
    isContinuation (byteChar b) = false ∧ ∀ b ∈ bs, isContinuation (byteChar b) = true := by
  have bound := toNat_val_lt x
  have byte {n : Nat} (small : n < 256) : (UInt8.ofNat n).toNat = n :=
    UInt8.toNat_ofNat_of_lt' small
  rw [String.utf8EncodeChar.eq_def]
  simp only [← Bool.not_eq_true, isContinuation_byteChar]
  generalize x.val.toNat = v at bound ⊢
  split_ifs <;> refine ⟨_, _, rfl, ?_, ?_⟩ <;>
    simp (disch := omega) only [List.forall_mem_cons, List.not_mem_nil, false_imp_iff,
      implies_true, and_true, byte] <;> omega

/-- The bytes from the second one of a character on that go on with a character are those of this
one. -/
theorem runEnd_isContinuation {x : Char} {rest : List Char} (here : c.In text)
    (whole : c.rest = x :: rest) : runEnd isContinuation text (c.pos + 1) = c.pos + x.utf8Size := by
  obtain ⟨b, bs, parts, -, others⟩ := exists_utf8EncodeChar_eq x
  have length := String.length_utf8EncodeChar x
  rw [parts, List.length_cons] at length
  have behind : (bytes text).drop (c.pos + 1) = bs ++ rest.flatMap String.utf8EncodeChar := by
    rw [← List.drop_drop, here.drop_bytes, whole, List.flatMap_cons, parts]
    rfl
  have stops : (rest.flatMap String.utf8EncodeChar).takeWhile
      (fun b => isContinuation (byteChar b)) = [] := by
    cases rest with
    | nil => rfl
    | cons y rest =>
      obtain ⟨b', bs', parts', begins, -⟩ := exists_utf8EncodeChar_eq y
      simp [parts', begins]
  rw [runEnd, behind, List.takeWhile_append_of_pos others, stops, List.append_nil, ← length]
  omega

theorem uniform_isLabelChar : Uniform isLabelChar :=
  uniform_of_oneByte fun _ => utf8Size_of_isLabelChar

theorem uniform_punctuation? : Uniform punctuation? := by
  apply uniform_of_beyond (a := none)
  intro c high
  cases mark : punctuation? c with
  | none => rfl
  | some token =>
    have one := Char.utf8Size_eq_one_iff.mp (text_of_punctuation? mark).2
    have small : c.toNat ≤ 127 := UInt32.le_iff_toNat_le.mp one
    omega

/-! ## Words -/

theorem lexFrom_of_none {pos : Nat} (read : List Lexeme) (ended : peek? text pos = none) :
    lexFrom text pos read = .ok read.reverse := by
  rw [lexFrom]
  split
  · rfl
  · next seen =>
    rw [ended] at seen
    cases seen

/-- A step of the reader, by the byte that it sees. -/
theorem lexFrom_of_some {pos : Nat} {y : Char} (read : List Lexeme)
    (seen : peek? text pos = some y) : lexFrom text pos read =
      if isBlank y then lexFrom text (pos + 1) read
      else
        match punctuation? y with
        | some token => do
          let span ← mark text ⟨pos, pos + 1⟩
          lexFrom text (pos + 1) (⟨token, span⟩ :: read)
        | none =>
          let stop := runEnd isLabelChar text (pos + 1)
          if isLabelChar y then do
            let label ← slice text ⟨pos, stop⟩
            if maxLabelLength < label.utf8ByteSize then
              reject text (.tokenTooLong label.utf8ByteSize maxLabelLength) ⟨pos, stop⟩
            else lexFrom text stop (⟨.label label, ⟨pos, stop⟩⟩ :: read)
          else
            charAt? text pos >>= fun found => reject text (.lexical (found.getD '\ufffd'))
              ⟨pos, runEnd isContinuation text (pos + 1)⟩ := by
  rw [lexFrom]
  split
  · next ended =>
    rw [seen] at ended
    cases ended
  · next seen' =>
    rw [seen] at seen'
    cases seen'
    rfl

/-- The bytes of a label end where its characters do. -/
theorem runEnd_isLabelChar {pos : Nat} {x : Char} {rest : List Char}
    (here : (Cursor.mk pos (x :: rest)).In text) (inLabel : isLabelChar x = true) :
    runEnd isLabelChar text (pos + 1) = pos + (x :: rest.takeWhile isLabelChar).length := by
  have one := utf8Size_of_isLabelChar inLabel
  have behind := here.of_passes (passes_char one pos rest)
  obtain ⟨-, length⟩ := passes_label inLabel pos rest
  have stop : runEnd isLabelChar text (pos + 1) =
      pos + 1 + byteLength (rest.takeWhile isLabelChar) := behind.runEnd_eq uniform_isLabelChar
  rw [byteLength_cons, one] at length
  rw [stop, Nat.add_assoc, length]

theorem lexFrom_of_label {pos : Nat} {x : Char} {rest : List Char} (read : List Lexeme)
    (here : (Cursor.mk pos (x :: rest)).In text) (visible : ¬isBlank x = true)
    (noMark : punctuation? x = none) (inLabel : isLabelChar x = true) :
    lexFrom text pos read =
      let label := x :: rest.takeWhile isLabelChar
      let stop := pos + label.length
      if maxLabelLength < label.length then
        .error (.rejected ⟨.tokenTooLong label.length maxLabelLength, ⟨pos, stop⟩⟩)
      else lexFrom text stop (⟨.label (String.ofList label), ⟨pos, stop⟩⟩ :: read) := by
  obtain ⟨y, seen, same⟩ := here.exists_peek? rfl
  obtain ⟨across, length⟩ := passes_label inLabel pos rest
  have cut := slice_of_shows here across.shows
  have size : (String.ofList (x :: rest.takeWhile isLabelChar)).utf8ByteSize =
      (x :: rest.takeWhile isLabelChar).length := by
    rw [utf8ByteSize_ofList, length]
  rw [lexFrom_of_some read seen, same _ uniform_isBlank, if_neg visible,
    same _ uniform_punctuation?, noMark, same _ uniform_isLabelChar,
    runEnd_isLabelChar here inLabel]
  dsimp only at cut ⊢
  rw [if_pos inLabel, cut, ok_bind, size, reject_of_shows here across.shows]

theorem lexFrom_eq {pos : Nat} {cs : List Char} (here : (Cursor.mk pos cs).In text)
    (read : List Lexeme) :
    lexFrom text pos read = (TreeDiagram.lexFrom pos cs read).mapError .rejected := by
  fun_induction TreeDiagram.lexFrom pos cs read with
  | case1 pos read => exact lexFrom_of_none read (here.peek?_eq_none_iff.mpr rfl)
  | case2 pos read x rest blank ih =>
    obtain ⟨y, seen, same⟩ := here.exists_peek? rfl
    rw [lexFrom_of_some read seen, same _ uniform_isBlank, if_pos blank]
    exact ih (here.of_passes (passes_char (utf8Size_of_isBlank blank) pos rest))
  | case3 pos read x rest visible token mark ih =>
    obtain ⟨y, seen, same⟩ := here.exists_peek? rfl
    have across := passes_char (text_of_punctuation? mark).2 pos rest
    rw [lexFrom_of_some read seen, same _ uniform_isBlank, if_neg visible,
      same _ uniform_punctuation?, mark]
    dsimp only
    rw [mark_of_shows here across.shows]
    exact ih (here.of_passes across)
  | case4 pos read x rest visible noMark inLabel label stop long =>
    rw [lexFrom_of_label read here visible noMark inLabel]
    exact if_pos long
  | case5 pos read x rest visible noMark inLabel label stop fits ih =>
    rw [lexFrom_of_label read here visible noMark inLabel]
    dsimp only
    rw [if_neg fits]
    exact ih (here.of_passes (passes_label inLabel pos rest).1)
  | case6 pos read x rest visible noMark notInLabel =>
    obtain ⟨y, seen, same⟩ := here.exists_peek? rfl
    have across : (Cursor.mk pos (x :: rest)).Passes [x] ⟨pos + x.utf8Size, rest⟩ := ⟨rfl, by simp⟩
    have stop := runEnd_isContinuation here rfl
    have whole := charAt?_eq here
    dsimp only at stop whole
    rw [lexFrom_of_some read seen, same _ uniform_isBlank, if_neg visible,
      same _ uniform_punctuation?, noMark, same _ uniform_isLabelChar]
    dsimp only
    rw [if_neg notInLabel, whole, stop]
    exact reject_of_shows here across.shows _

/-- Byte by byte a description is split into the words that it is split into character by character.
-/
theorem lex_eq (text : String) :
    lex text = (TreeDiagram.lex text.toList).mapError .rejected :=
  lexFrom_eq (Cursor.in_start text) []

theorem parse_eq {K : Type} [Scalar K] (text : String) :
    parse (K := K) text = (TreeDescription.parse text.toList).mapError .rejected := by
  rw [parse, TreeDescription.parse, lex_eq, byteLength_toList]
  cases TreeDiagram.lex text.toList with
  | error e => rfl
  | ok words => rfl

end Bytewise

end TreeDiagram
