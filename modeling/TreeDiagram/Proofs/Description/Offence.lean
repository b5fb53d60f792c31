import TreeDiagram.Proofs.Description.Machine
import TreeDiagram.Proofs.Offence
/-!
# Where descriptions go wrong

The words of a description stand at their spans. Whatever ends the reading of a description is
located at a character that belongs to no word, at a label that is too long, or at a word or the
end where another symbol was due.
-/

namespace TreeDiagram

open ParseError

/-! ## Words -/

theorem utf8Size_of_isLabelChar {c : Char} (inLabel : isLabelChar c = true) : c.utf8Size = 1 := by
  rw [isLabelChar, Bool.or_eq_true, beq_iff_eq] at inLabel
  rcases inLabel with letter | rfl
  · exact utf8Size_of_isAlphanumeric letter
  · rfl

theorem text_of_punctuation? {c : Char} {token : Token} (mark : punctuation? c = some token) :
    token.text = [c] ∧ c.utf8Size = 1 := by
  unfold punctuation? at mark
  split at mark
  · next same =>
    cases mark
    exact ⟨by rw [same]; rfl, by rw [same]; rfl⟩
  · split at mark
    · next same =>
      cases mark
      exact ⟨by rw [same]; rfl, by rw [same]; rfl⟩
    · split at mark
      · next same =>
        cases mark
        exact ⟨by rw [same]; rfl, by rw [same]; rfl⟩
      · cases mark

theorem passes_char {c : Char} (one : c.utf8Size = 1) (pos : Nat) (rest : List Char) :
    (Cursor.mk pos (c :: rest)).Passes [c] ⟨pos + 1, rest⟩ :=
  ⟨rfl, by rw [byteLength_cons, one]; rfl⟩

/-- A label is passed as a whole. -/
theorem passes_label {c : Char} (inLabel : isLabelChar c = true) (pos : Nat) (rest : List Char) :
    (Cursor.mk pos (c :: rest)).Passes (c :: rest.takeWhile isLabelChar)
      ⟨pos + (c :: rest.takeWhile isLabelChar).length, rest.dropWhile isLabelChar⟩ ∧
    byteLength (c :: rest.takeWhile isLabelChar) = (c :: rest.takeWhile isLabelChar).length := by
  have length : byteLength (c :: rest.takeWhile isLabelChar) =
      (c :: rest.takeWhile isLabelChar).length := by
    apply byteLength_eq_length
    intro d member
    apply utf8Size_of_isLabelChar
    rcases List.mem_cons.mp member with rfl | later
    · exact inLabel
    · exact List.mem_takeWhile_imp later
  refine ⟨⟨?_, ?_⟩, length⟩
  · rw [List.cons_append, List.takeWhile_append_dropWhile]
  · rw [length]

theorem locatedIn_of_lexFrom {pos : Nat} {cs : List Char} {read : List Lexeme} {e : ParseError}
    (h : lexFrom pos cs read = .error e) : e.LocatedIn ⟨pos, cs⟩ := by
  fun_induction lexFrom pos cs read with
  | case1 => cases h
  | case2 pos read c rest blank ih =>
    exact (ih h).of_passes (passes_char (utf8Size_of_isBlank blank) pos rest)
  | case3 pos read c rest visible token mark ih =>
    exact (ih h).of_passes (passes_char (text_of_punctuation? mark).2 pos rest)
  | case4 pos read c rest visible noMark inLabel text stop long =>
    cases h
    obtain ⟨passed, length⟩ := passes_label inLabel pos rest
    exact locatedIn_of_passes passed ⟨length, long⟩
  | case5 pos read c rest visible noMark inLabel text stop fits ih =>
    exact (ih h).of_passes (passes_label inLabel pos rest).1
  | case6 pos read c rest visible noMark notInLabel =>
    cases h
    have across : (Cursor.mk pos (c :: rest)).Passes [c] ⟨pos + c.utf8Size, rest⟩ := ⟨rfl, by simp⟩
    exact locatedIn_of_passes across rfl

theorem shows_of_lexFrom {pos : Nat} {cs : List Char} {read words : List Lexeme}
    (h : lexFrom pos cs read = .ok words) : ∃ new, words = read.reverse ++ new ∧
      ∀ w ∈ new, (Cursor.mk pos cs).Shows w.span w.token.text := by
  -- a word that is read here, and those that are read behind it
  have step : ∀ {pos pos' : Nat} {cs cs' : List Char} {read new : List Lexeme} {w : Lexeme},
      (Cursor.mk pos cs).Passes w.token.text ⟨pos', cs'⟩ → w.span = ⟨pos, pos'⟩ →
      words = (w :: read).reverse ++ new →
      (∀ w ∈ new, (Cursor.mk pos' cs').Shows w.span w.token.text) →
      ∃ new, words = read.reverse ++ new ∧
        ∀ w ∈ new, (Cursor.mk pos cs).Shows w.span w.token.text := by
    intro pos pos' cs cs' read new w passed place split shows
    refine ⟨w :: new, by rw [split]; simp, ?_⟩
    intro w' member
    rcases List.mem_cons.mp member with rfl | later
    · rw [place]
      exact passed.shows
    · exact (shows w' later).of_passes passed
  fun_induction lexFrom pos cs read with
  | case1 =>
    cases h
    exact ⟨[], by simp, by simp⟩
  | case2 pos read c rest blank ih =>
    obtain ⟨new, split, shows⟩ := ih h
    refine ⟨new, split, ?_⟩
    intro w member
    exact (shows w member).of_passes (passes_char (utf8Size_of_isBlank blank) pos rest)
  | case3 pos read c rest visible token mark ih =>
    obtain ⟨new, split, shows⟩ := ih h
    obtain ⟨text, one⟩ := text_of_punctuation? mark
    have passed := passes_char one pos rest
    rw [← text] at passed
    exact step passed rfl split shows
  | case4 => cases h
  | case5 pos read c rest visible noMark inLabel text stop fits ih =>
    obtain ⟨new, split, shows⟩ := ih h
    have passed := (passes_label inLabel pos rest).1
    have word : (Token.label (String.ofList text)).text = text := String.toList_ofList
    exact step (by rw [word]; exact passed) rfl split shows
  | case6 => cases h

/-! ## Reading -/

namespace Terminal

/-- The characters of a word, none at the end. -/
def text (t : Terminal) : List Char :=
  (t.token.map Token.text).getD []

/-- An error that names a word, at the place of the word. -/
structure Offends (t : Terminal) (e : ParseError) : Prop where
  span : e.span = t.span
  names : e.cause.Names t.text

theorem shows_of_ofLexemes {cs : List Char} {words : List Lexeme} (read : lex cs = .ok words) :
    ∀ t ∈ ofLexemes words (byteLength cs), (Cursor.start cs).Shows t.span t.text := by
  obtain ⟨new, rfl, shows⟩ := shows_of_lexFrom read
  intro t member
  rcases List.mem_append.mp member with inWords | atEnd
  · obtain ⟨w, inNew, rfl⟩ := List.mem_map.mp inWords
    exact shows w inNew
  · rw [List.mem_singleton.mp atEnd]
    exact Cursor.shows_iff.mpr ⟨cs, [], by simp [Cursor.start, text], by simp [Cursor.start, text]⟩

end Terminal

namespace TreeDescription

variable {K : Type} [Scalar K] {e : ParseError}

theorem offends_unexpected (now : Terminal) (due : Symbol) : now.Offends (unexpected now due) :=
  ⟨rfl, rfl⟩

theorem offends_of_popSlot {slots : List Slot} {now : Terminal}
    (h : popSlot slots now = .error e) : now.Offends e := by
  cases slots with
  | nil =>
    cases h
    exact ⟨rfl, trivial⟩
  | cons => cases h

omit [Scalar K] in
theorem offends_of_place {tree : Tree K} {slot : Slot} {node : Nat} {now : Terminal}
    (h : place tree slot node now = .error e) : now.Offends e := by
  cases slot with
  | root => cases h
  | child => cases h
  | own =>
    cases h
    exact ⟨rfl, trivial⟩

theorem offends_of_expand {s : State K} {now : Terminal} {symbols : List Symbol}
    {slots : Nat → List Slot} (h : expand s now symbols slots = .error e) : now.Offends e := by
  unfold expand at h
  rcases bind_eq_error.mp h with failed | ⟨⟨slot, left⟩, -, h⟩
  · exact offends_of_popSlot failed
  · rcases bind_eq_error.mp h with failed | ⟨tree, -, impossible⟩
    · exact offends_of_place failed
    · cases impossible

/-- A step that fails names the word that comes now. -/
theorem offends_of_step {s : State K} {now : Terminal} {behind : List Terminal}
    (h : step s now behind = .error e) : now.Offends e := by
  unfold step at h
  split at h
  · cases h
    exact offends_unexpected now .finish
  · next due symbols top =>
    split at h
    · exact offends_of_expand h
    · exact offends_of_expand h
    · exact offends_of_popSlot (map_eq_error.mp h)
    · split at h
      · exact offends_of_popSlot (map_eq_error.mp h)
      · cases h
    · cases h
      exact offends_unexpected now due

/-- A reading that fails names one of the words that were left to read. -/
theorem offends_of_run {s : State K} (h : run s = .error e) : ∃ t ∈ s.rest, t.Offends e := by
  induction s using run.induct with
  | case1 s noWords =>
    rw [run_of_done noWords] at h
    cases h
  | case2 s now behind words e' failed =>
    rw [run_of_error words failed] at h
    cases h
    refine ⟨now, ?_, offends_of_step failed⟩
    rw [words]
    exact List.mem_cons_self
  | case3 s now behind words next taken _ ih =>
    rw [run_of_step words (step_eq_ok.mp taken)] at h
    obtain ⟨t, member, offends⟩ := ih h
    refine ⟨t, ?_, offends⟩
    rcases step_progress taken with rest | ⟨rest, -⟩
    · rw [rest] at member
      rw [words]
      exact List.mem_cons_of_mem now member
    · rw [← rest]
      exact member

theorem offends_of_readAll {words : List Terminal} (some_ : words ≠ [])
    (h : readAll (K := K) words = .error e) : ∃ t ∈ words, t.Offends e := by
  rcases bind_eq_error.mp h with failed | ⟨s, -, incomplete⟩
  · exact offends_of_run failed
  · split at incomplete
    · cases incomplete
    · cases incomplete
      refine ⟨words.getLast some_, List.getLast_mem some_, ?_, trivial⟩
      rw [List.getLast?_eq_some_getLast some_]
      rfl

/-- What a description is rejected for is located in the description. -/
theorem locatedIn_of_parse {cs : List Char} (h : parse (K := K) cs = .error e) :
    e.LocatedIn (Cursor.start cs) := by
  rcases bind_eq_error.mp h with failed | ⟨words, read, rejected⟩
  · exact locatedIn_of_lexFrom failed
  · dsimp only at rejected
    split at rejected
    · cases rejected
    · next e' failed =>
      split at rejected
      · cases rejected
      · cases rejected
        obtain ⟨t, member, offends⟩ := offends_of_readAll (by simp [Terminal.ofLexemes]) failed
        have shows := Terminal.shows_of_ofLexemes read t member
        rw [← offends.span] at shows
        exact ⟨t.text, shows, offends.names⟩

end TreeDescription

end TreeDiagram
