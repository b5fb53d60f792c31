import TreeDiagram.Bytewise.Line
import TreeDiagram.Proofs.Bytewise.Basic
import TreeDiagram.Proofs.Property.Acceptance
/-!
# Property lines read byte by byte

The reader of property lines that goes on byte by byte is, wherever it cuts the line or says where
something stands, at a position between characters. It gives what the reader gives that goes on
character by character.
-/

namespace TreeDiagram

namespace Bytewise

variable {c : Cursor} {text : String}

/-! ## Classes of bytes -/

theorem uniform_isDigit : Uniform isDigit :=
  uniform_of_oneByte fun _ digit => utf8Size_of_isHexDigit (isHexDigit_of_isDigit digit)

theorem uniform_isHexDigit : Uniform isHexDigit :=
  uniform_of_oneByte fun _ => utf8Size_of_isHexDigit

theorem uniform_isAlphanumeric : Uniform isAlphanumeric :=
  uniform_of_oneByte fun _ => utf8Size_of_isAlphanumeric

theorem uniform_isQuotable : Uniform Line.isQuotable := by
  apply uniform_of_oneByte
  intro c quotable
  simp only [Line.isQuotable, isPrintable, Bool.and_eq_true, decide_eq_true_eq] at quotable
  exact utf8Size_of_le quotable.1.2

/-- A text without quotes takes in all characters beyond ASCII, so it takes all of their bytes. -/
theorem uniform_isBare : Uniform Line.isBare := by
  apply uniform_of_beyond (a := true)
  intro c high
  have above : ' ' < c := Nat.lt_of_lt_of_le (by decide : ' '.toNat < 128) high
  have other : ∀ x : Char, x.toNat < 128 → c ≠ x := by
    rintro x low rfl
    omega
  simp [Line.isBare, above, other ',' (by decide), other ']' (by decide), other '"' (by decide)]

/-! ## Values -/

theorem unexpected_eq {α : Type} (here : c.In text) (due : LineItem) :
    unexpected (α := α) due text c.pos = .error (.rejected (Line.unexpected due c)) := by
  rw [unexpected, charAt?_eq here, Line.unexpected]
  cases whole : c.rest with
  | nil => exact reject_of_shows here (Cursor.Passes.refl c).shows _
  | cons x rest =>
    have across : c.Passes [x] ⟨c.pos + x.utf8Size, rest⟩ := ⟨whole, by simp⟩
    exact reject_of_shows here across.shows _

theorem takeRun_eq {p : Char → Bool} (here : c.In text) (uniform : Uniform p) :
    takeRun p text c.pos = unbroken (fun r => ⟨c.pos, r.2.pos⟩) (Line.takeRun p c) := by
  have passed := c.passes_span p
  have width : (c.span p).2.pos - c.pos = byteLength (c.span p).1 := by
    rw [passed.pos, Nat.add_sub_cancel_left]
  rw [takeRun, Line.takeRun, here.runEnd_eq uniform, width]
  split
  · exact reject_of_shows here passed.shows _
  · exact mark_of_shows here passed.shows

/-- A span is empty if its run is. -/
theorem pos_eq_iff_of_passes {d : Cursor} {run : List Char} (h : c.Passes run d) :
    c.pos = d.pos ↔ run.isEmpty = true := by
  rw [h.pos, List.isEmpty_iff]
  constructor
  · intro same
    exact eq_nil_of_byteLength (by omega)
  · rintro rfl
    rfl

/-- The mark of a hexadecimal numeral is seen where it stands. -/
theorem marksHexadecimal_eq (here : c.In text) :
    marksHexadecimal text c.pos = !(Line.numeralMark c).1.isEmpty := by
  have first := here.peek?_eq_some_iff (x := '0') (by decide)
  -- a cursor stands behind the first digit as well
  have second : ∀ x rest, c.rest = '0' :: x :: rest → ∀ y : Char, y.toNat < 128 →
      (peek? text (c.pos + 1) = some y ↔ x = y) := by
    intro x rest whole y ascii
    have across : c.Passes ['0'] ⟨c.pos + 1, x :: rest⟩ := ⟨whole, rfl⟩
    simpa using (here.of_passes across).peek?_eq_some_iff ascii
  unfold marksHexadecimal Line.numeralMark
  split
  · next rest whole => simp [first, whole, second 'x' rest whole 'x' (by decide)]
  · next rest whole => simp [first, whole, second 'X' rest whole 'X' (by decide)]
  · next lower upper =>
    cases whole : c.rest with
    | nil => simp [first, whole]
    | cons d rest =>
      by_cases zero : d = '0'
      · subst zero
        cases rest with
        | nil =>
          have across : c.Passes ['0'] ⟨c.pos + 1, []⟩ := ⟨whole, rfl⟩
          simp [(here.of_passes across).peek?_eq_none_iff.mpr rfl]
        | cons x rest =>
          have other : x ≠ 'x' ∧ x ≠ 'X' :=
            ⟨fun same => lower rest (by rw [whole, same]),
              fun same => upper rest (by rw [whole, same])⟩
          simp [second x rest whole 'x' (by decide), second x rest whole 'X' (by decide), other]
      · simp [first, whole, zero]

theorem takeDigits_eq (here : c.In text) : takeDigits text c.pos =
    unbroken (fun r => ⟨(Line.numeralMark c).2.pos, r.2.pos⟩)
      (Line.takeRun (Line.digitAfter (Line.numeralMark c).1) (Line.numeralMark c).2) := by
  have passed := Line.passes_numeralMark c
  have behind := here.of_passes passed
  have place := passed.pos
  rw [takeDigits, marksHexadecimal_eq here]
  rcases Line.numeralMark_cases c with none_ | ⟨mark, isMark, marked⟩
  · rw [none_, byteLength_nil, Nat.add_zero] at place
    rw [none_, ← place]
    exact takeRun_eq behind uniform_isDigit
  · have width : byteLength ['0', mark] = 2 := by
      rcases isMark with rfl | rfl <;> rfl
    rw [marked, width] at place
    rw [marked, ← place]
    exact takeRun_eq behind uniform_isHexDigit

theorem scanNumber_eq (here : c.In text) : scanNumber text c.pos =
    unbroken (fun r => (r.1.span, r.2.pos)) (Line.scanNumber c) := by
  have passedMark := Line.passes_numeralMark c
  have marked := Line.numeralMark_cases c
  rw [scanNumber, Line.scanNumber, takeDigits_eq here]
  generalize Line.numeralMark c = found at passedMark marked ⊢
  obtain ⟨front, behindMark⟩ := found
  apply bind_unbroken
  rintro ⟨digits, next⟩ taken
  obtain ⟨passed, isRun, -⟩ := Line.takeRun_spec taken
  have across := passedMark.trans passed
  have width : next.pos - c.pos = front.length + digits.length := by
    rw [across.pos, Nat.add_sub_cancel_left, Line.byteLength_number marked isRun.inside]
  dsimp only
  rw [width]
  simp only [pos_eq_iff_of_passes passed]
  split
  · exact unexpected_eq (here.of_passes across) _
  · split
    · exact reject_of_shows here across.shows _
    · rw [mark_of_shows here across.shows]
      rfl

theorem scanText_eq (here : c.In text) : scanText text c.pos =
    unbroken (fun r => (r.1.span, r.2.pos)) (Line.scanText c) := by
  rw [scanText, Line.scanText, here.eat?_eq (by decide)]
  cases quote : c.eat? '"' with
  | some opened =>
    have behindQuote := Cursor.passes_eat? quote
    have inside := here.of_passes behindQuote
    rw [Option.map_some]
    dsimp only
    rw [takeRun_eq inside uniform_isQuotable]
    apply bind_unbroken
    rintro ⟨chars, closing⟩ taken
    obtain ⟨passed, -, -⟩ := Line.takeRun_spec taken
    have behind := inside.of_passes passed
    dsimp only
    rw [behind.eat?_eq (by decide)]
    cases closes : closing.eat? '"' with
    | some next => rfl
    | none =>
      have quoteWidth : opened.pos - 1 = c.pos := by
        rw [behindQuote.pos]
        rfl
      rw [quoteWidth]
      exact reject_of_shows here (behindQuote.trans passed).shows _
  | none =>
    rw [Option.map_none]
    dsimp only
    rw [takeRun_eq here uniform_isBare]
    apply bind_unbroken
    rintro ⟨chars, next⟩ taken
    obtain ⟨passed, -, -⟩ := Line.takeRun_spec taken
    simp only [pos_eq_iff_of_passes passed]
    split
    · exact unexpected_eq (here.of_passes passed) _
    · rfl

theorem scanValue_eq (here : c.In text) (rule : Rule) : scanValue rule text c.pos =
    unbroken (fun r => (r.1.span, r.2.pos)) (Line.scanValue rule c) := by
  cases rule with
  | range => exact scanNumber_eq here
  | length => exact scanText_eq here

/-! ## Pairs -/

theorem scanPair_eq (here : c.In text) : scanPair text c.pos =
    unbroken (fun r => (r.1, r.2.pos)) (Line.scanPair c) := by
  rw [scanPair, Line.scanPair, takeRun_eq here uniform_isAlphanumeric]
  apply bind_unbroken
  rintro ⟨name, behindName⟩ taken
  obtain ⟨overName, -, -⟩ := Line.takeRun_spec taken
  have hereName := here.of_passes overName
  simp only [pos_eq_iff_of_passes overName]
  split
  · exact unexpected_eq hereName _
  · rw [slice_of_shows here overName.shows, ok_bind]
    cases Property.ofName? (String.ofList name) with
    | none => exact reject_of_shows here overName.shows _
    | some property =>
      obtain ⟨blanks, -, overBlanks⟩ := behindName.passes_skipBlanks
      have front := overName.trans overBlanks
      have hereSign := here.of_passes front
      dsimp only
      rw [skipBlanks_eq hereName, hereSign.eat?_eq (by decide)]
      cases equals : behindName.skipBlanks.eat? '=' with
      | none => exact unexpected_eq hereSign _
      | some behindSign =>
        obtain ⟨blanks', -, overBlanks'⟩ := behindSign.passes_skipBlanks
        have sign := front.trans (Cursor.passes_eat? equals)
        have upToValue := sign.trans overBlanks'
        rw [Option.map_some]
        dsimp only
        rw [skipBlanks_eq (here.of_passes sign), scanValue_eq (here.of_passes upToValue)]
        apply bind_unbroken
        rintro ⟨raw, next⟩ scanned
        obtain ⟨written, overValue, -, -, shows⟩ := Line.scanValue_sound scanned
        have place := shows.of_passes upToValue
        dsimp only
        have cut : slice text raw.span = .ok raw.text := slice_of_shows here place
        rw [cut, ok_bind]
        cases property.validate raw.text with
        | error reason => exact reject_of_shows here place _
        | ok value =>
          dsimp only
          rw [mark_of_shows here (upToValue.trans overValue).shows]
          rfl

theorem skipSeparator_eq (here : c.In text) : skipSeparator text c.pos = c.skipSeparator.pos := by
  have behind := here.skipBlanks
  rw [skipSeparator, skipBlanks_eq here]
  unfold Cursor.skipSeparator
  cases whole : c.skipBlanks.rest with
  | nil =>
    rw [behind.peek?_eq_none_iff.mpr whole]
    simp only [whole]
  | cons x rest =>
    obtain ⟨y, seen, same⟩ := behind.exists_peek? whole
    have mark : (y = ',' ∨ y = ';') = (x = ',' ∨ x = ';') :=
      same _ (uniform_either (by decide : ','.toNat < 128) (by decide : ';'.toNat < 128))
    simp only [seen, whole, mark]
    split
    · next separator =>
      have one : x.utf8Size = 1 := by
        rcases separator with rfl | rfl <;> rfl
      have across : c.skipBlanks.Passes [x] ⟨c.skipBlanks.pos + 1, rest⟩ := ⟨whole, by simp [one]⟩
      rw [one]
      exact skipBlanks_eq (behind.of_passes across)
    · rfl

theorem scanPairs_of_error {pos : Nat} {e : Halt}
    (failed : scanPair text (skipBlanks text pos) = .error e) : scanPairs text pos = .error e := by
  rw [scanPairs]
  split
  · next found =>
    rw [failed] at found
    cases found
    rfl
  · next found =>
    rw [failed] at found
    cases found

/-- A round of the loop over pairs, behind the pair that is read in it. -/
theorem scanPairs_of_ok {pos next : Nat} {pair : Assignment}
    (scanned : scanPair text (skipBlanks text pos) = .ok (pair, next)) : scanPairs text pos =
      match eat? ']' text (skipSeparator text next) with
      | some closed => .ok ([pair], closed)
      | none =>
        if text.utf8ByteSize ≤ skipSeparator text next then
          unexpected .rightBracket text (skipSeparator text next)
        else
          (scanPairs text (skipSeparator text next)).map fun (pairs, closed) =>
            (pair :: pairs, closed) := by
  rw [scanPairs]
  split
  · next found =>
    rw [scanned] at found
    cases found
  · next found =>
    rw [scanned] at found
    cases found
    rfl

/-- A round of the loop goes on from where the other reader goes on. -/
theorem scanPairs_of_scanPair {next : Cursor} {pair : Assignment} (here : c.In text)
    (scanned : Line.scanPair c.skipBlanks = .ok (pair, next)) :
    next.skipSeparator.In text ∧ scanPairs text c.pos =
      match next.skipSeparator.eat? ']' with
      | some closed => .ok ([pair], closed.pos)
      | none =>
        if next.skipSeparator.atEnd then
          .error (.rejected (Line.unexpected .rightBracket next.skipSeparator))
        else
          (scanPairs text next.skipSeparator.pos).map fun (pairs, closed) =>
            (pair :: pairs, closed) := by
  obtain ⟨written, across, -⟩ := Line.scanPair_sound scanned
  have behindPair := here.skipBlanks.of_passes across
  have behind := behindPair.skipSeparator
  have found : scanPair text (skipBlanks text c.pos) = .ok (pair, next.pos) := by
    rw [skipBlanks_eq here, scanPair_eq here.skipBlanks, scanned]
    rfl
  refine ⟨behind, ?_⟩
  rw [scanPairs_of_ok found]
  simp only [skipSeparator_eq behindPair, behind.eat?_eq (by decide : ']' ≤ '~'),
    behind.atEnd_iff, unexpected_eq behind]
  cases next.skipSeparator.eat? ']' <;> rfl

theorem scanPairs_eq (here : c.In text) : scanPairs text c.pos =
    unbroken (fun closed => ((Line.scanPairs c).1, closed.pos)) (Line.scanPairs c).2 := by
  fun_induction Line.scanPairs c with
  | case1 c e failed =>
    apply scanPairs_of_error
    rw [skipBlanks_eq here, scanPair_eq here.skipBlanks, failed]
    rfl
  | case2 c pair next scanned gap closed closes =>
    obtain ⟨-, round⟩ := scanPairs_of_scanPair here scanned
    rw [round, closes]
    rfl
  | case3 c pair next scanned behind opened ended =>
    obtain ⟨-, round⟩ := scanPairs_of_scanPair here scanned
    rw [round, opened]
    exact if_pos ended
  | case4 c pair next scanned behind opened inside shorter more ih =>
    obtain ⟨hereGap, round⟩ := scanPairs_of_scanPair here scanned
    rw [round, opened]
    dsimp only
    rw [if_neg inside, ih hereGap]
    cases more.2 <;> rfl

/-! ## Lines -/

theorem scanScope_eq (here : c.In text) : scanScope text c.pos =
    unbroken (fun r => (r.1, r.2.pos)) (Line.scanScope c) := by
  unfold scanScope Line.scanScope
  cases whole : c.rest with
  | nil =>
    rw [here.peek?_eq_none_iff.mpr whole]
    exact unexpected_eq here _
  | cons x rest =>
    obtain ⟨y, seen, same⟩ := here.exists_peek? whole
    have bracket : (y = '[') = (x = '[') := same _ (uniform_eq (by decide))
    simp only [seen, same _ uniform_isDigit, bracket]
    split
    · rw [takeRun_eq here uniform_isDigit]
      apply bind_unbroken
      rintro ⟨digits, next⟩ taken
      obtain ⟨passed, -, -⟩ := Line.takeRun_spec taken
      dsimp only
      rw [slice_of_shows here passed.shows, ok_bind, String.toList_ofList]
      split
      · rfl
      · exact reject_of_shows here passed.shows _
    · split
      · rfl
      · exact unexpected_eq here _

theorem scanTail_eq (here : c.In text) : scanTail text c.pos = unbroken id (Line.scanTail c) := by
  have behind := here.skipSeparator
  unfold scanTail Line.scanTail
  rw [skipSeparator_eq here]
  cases whole : c.skipSeparator.rest with
  | nil =>
    simp only [behind.peek?_eq_none_iff.mpr whole, whole]
    rfl
  | cons x rest =>
    obtain ⟨y, seen, same⟩ := behind.exists_peek? whole
    have mark : (y = '/' ∨ y = '#') = (x = '/' ∨ x = '#') :=
      same _ (uniform_either (by decide : '/'.toNat < 128) (by decide : '#'.toNat < 128))
    simp only [seen, whole, mark]
    split
    · rfl
    · exact unexpected_eq behind _

theorem scanBody_eq (here : c.In text) (scope : LineScope) : scanBody scope text c.pos =
    unbroken (fun _ => (Line.scanBody scope c).1) (Line.scanBody scope c).2 := by
  have hereBracket := here.skipBlanks
  unfold scanBody Line.scanBody
  rw [skipBlanks_eq here]
  simp only [hereBracket.atEnd_iff]
  split
  · rfl
  · rw [hereBracket.eat?_eq (by decide)]
    cases bracket : c.skipBlanks.eat? '[' with
    | none => exact unexpected_eq hereBracket _
    | some opened =>
      have inside := hereBracket.of_eat? bracket
      dsimp only [Option.map_some]
      rw [scanPairs_eq inside]
      apply bind_unbroken
      intro closed ended
      obtain ⟨-, run, across⟩ := Line.scanPairs_sound ended
      dsimp only
      rw [scanTail_eq (inside.of_passes across)]
      cases Line.scanTail closed <;> rfl

theorem in_of_scanScope {next : Cursor} {scope : LineScope} (here : c.In text)
    (found : Line.scanScope c = .ok (scope, next)) : next.In text := by
  rcases Line.scanScope_sound found with ⟨id, digits, -, passed, -⟩ | ⟨-, rfl⟩
  · exact here.of_passes passed
  · exact here

/-- Byte by byte a property line is read as it is read character by character. -/
theorem scanLine_eq (text : String) :
    scanLine text = (TreeDiagram.scanLine text.toList).mapError .rejected := by
  have here := (Cursor.in_start text).skipBlanks
  have place : skipBlanks text 0 = (Cursor.start text.toList).skipBlanks.pos :=
    skipBlanks_eq (Cursor.in_start text)
  rw [← unbroken_id, scanLine, TreeDiagram.scanLine, Line.scanAll, place, scanScope_eq here]
  cases found : Line.scanScope (Cursor.start text.toList).skipBlanks with
  | error e => rfl
  | ok read =>
    obtain ⟨scope, next⟩ := read
    simp only [unbroken_ok, bind, Except.bind, Except.map, scanBody_eq (in_of_scanScope here found)]
    cases (Line.scanBody scope next).2 <;> rfl

end Bytewise

end TreeDiagram
