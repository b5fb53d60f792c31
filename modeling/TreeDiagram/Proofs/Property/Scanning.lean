import TreeDiagram.Proofs.Property.Grammar
import TreeDiagram.Proofs.Text.Letter
/-!
# Scanning follows the grammar

Each scanner takes a phrase of the grammar and says what the phrase says, and it takes every phrase
wherever one stands. Together the two directions make the accepted lines those of the grammar.
-/

namespace TreeDiagram

namespace Line

theorem takeRun_spec {p : Char → Bool} {c next : Cursor} {run : List Char}
    (h : takeRun p c = .ok (run, next)) :
    c.Passes run next ∧ IsRun p run next.rest ∧ byteLength run ≤ maxTokenLength := by
  have taken := takeRun_eq h
  have passed := c.passes_span p
  have isRun := c.isRun_span p
  rw [← taken] at passed isRun
  refine ⟨passed, isRun, ?_⟩
  by_contra long
  have refused : takeRun p c = .error _ := if_pos (by rw [← taken]; exact Nat.lt_of_not_le long)
  rw [refused] at h
  cases h

theorem takeRun_of_isRun {p : Char → Bool} {run behind : List Char} (h : IsRun p run behind)
    (short : byteLength run ≤ maxTokenLength) (pos : Nat) :
    takeRun p ⟨pos, run ++ behind⟩ = .ok (run, ⟨pos + byteLength run, behind⟩) := by
  simp only [takeRun, Cursor.span_of_isRun h]
  rw [if_neg (Nat.not_lt.mpr short)]

/-! ## Values -/

theorem passes_numeralMark (c : Cursor) : c.Passes (numeralMark c).1 (numeralMark c).2 := by
  unfold numeralMark
  split
  · next rest whole => exact ⟨whole, by simp [Char.utf8Size]⟩
  · next rest whole => exact ⟨whole, by simp [Char.utf8Size]⟩
  · exact .refl c

theorem numeralMark_cases (c : Cursor) : (numeralMark c).1 = [] ∨
    ∃ mark, (mark = 'x' ∨ mark = 'X') ∧ (numeralMark c).1 = ['0', mark] := by
  unfold numeralMark
  split
  · exact .inr ⟨'x', .inl rfl, rfl⟩
  · exact .inr ⟨'X', .inr rfl, rfl⟩
  · exact .inl rfl

/-- A text that does not go on with the mark of a hexadecimal numeral. -/
def Unmarked (cs : List Char) : Prop :=
  ∀ x, cs.head? = some x → x ≠ 'x' ∧ x ≠ 'X'

theorem numeralMark_of_digits {digits behind : List Char} (notEmpty : digits ≠ [])
    (all : ∀ c ∈ digits, isDigit c = true) (unmarked : Unmarked behind) (pos : Nat) :
    numeralMark ⟨pos, digits ++ behind⟩ = ([], ⟨pos, digits ++ behind⟩) := by
  have second : ∀ rest x, digits ++ behind = '0' :: x :: rest → x ≠ 'x' ∧ x ≠ 'X' := by
    intro rest x whole
    obtain ⟨first, more, rfl⟩ := List.exists_cons_of_ne_nil notEmpty
    cases more with
    | nil =>
      apply unmarked
      simp only [List.singleton_append, List.cons.injEq] at whole
      rw [whole.2]
      rfl
    | cons d more =>
      simp only [List.cons_append, List.cons.injEq] at whole
      have digit := all d (by simp)
      rw [whole.2.1] at digit
      constructor <;> rintro rfl <;> exact absurd digit (by decide)
  unfold numeralMark
  split
  · next rest whole => exact absurd rfl (second rest 'x' whole).1
  · next rest whole => exact absurd rfl (second rest 'X' whole).2
  · rfl

/-- A numeral takes as many bytes as it has characters. -/
theorem byteLength_number {mark digits : List Char}
    (marked : mark = [] ∨ ∃ x, (x = 'x' ∨ x = 'X') ∧ mark = ['0', x])
    (inside : ∀ d ∈ digits, digitAfter mark d = true) :
    byteLength (mark ++ digits) = mark.length + digits.length := by
  have hexDigits : ∀ d ∈ digits, isHexDigit d = true := by
    intro d member
    have digit := inside d member
    rcases marked with rfl | ⟨x, -, rfl⟩
    · exact isHexDigit_of_isDigit digit
    · exact digit
  have markLength : byteLength mark = mark.length := by
    rcases marked with rfl | ⟨x, rfl | rfl, rfl⟩ <;> rfl
  rw [byteLength_append, byteLength_of_hexDigits hexDigits, markLength]

theorem scanNumber_sound {c next : Cursor} {raw : RawValue} (min max : Nat)
    (h : scanNumber c = .ok (raw, next)) : c.Passes raw.chars next ∧
      ValueText (.range min max) raw.chars raw.chars next.rest ∧
      byteLength raw.chars ≤ maxTokenLength ∧ raw.span = ⟨c.pos, next.pos⟩ := by
  have passedMark := passes_numeralMark c
  have marked := numeralMark_cases c
  unfold scanNumber at h
  generalize numeralMark c = found at h passedMark marked
  obtain ⟨mark, behindMark⟩ := found
  obtain ⟨⟨digits, behind⟩, run, h⟩ := bind_eq_ok.mp h
  dsimp only at h run passedMark marked
  split at h
  · cases h
  · next some_ =>
    split at h
    · cases h
    · next fits =>
      cases h
      obtain ⟨passed, isRun, -⟩ := takeRun_spec run
      have notEmpty : digits ≠ [] := by simpa using some_
      refine ⟨passedMark.trans passed, ?_, ?_, rfl⟩
      · rcases marked with rfl | ⟨x, isMark, rfl⟩
        · exact .decimal notEmpty isRun
        · exact .hexadecimal isMark notEmpty isRun
      · rw [byteLength_number marked isRun.inside]
        exact Nat.le_of_not_lt fits

theorem scanNumber_of_decimal {digits behind : List Char} (notEmpty : digits ≠ [])
    (run : IsRun isDigit digits behind) (short : byteLength digits ≤ maxTokenLength)
    (unmarked : Unmarked behind) (pos : Nat) :
    scanNumber ⟨pos, digits ++ behind⟩ =
      .ok (⟨digits, ⟨pos, pos + byteLength digits⟩⟩, ⟨pos + byteLength digits, behind⟩) := by
  have length := byteLength_of_hexDigits fun d member => isHexDigit_of_isDigit (run.inside d member)
  have taken := takeRun_of_isRun run short pos
  simp only [scanNumber, numeralMark_of_digits notEmpty run.inside unmarked, digitAfter, taken,
    bind, Except.bind]
  rw [if_neg (by simpa using notEmpty), if_neg]
  · rfl
  · rw [List.length_nil, Nat.zero_add, ← length]
    exact Nat.not_lt.mpr short

theorem scanNumber_of_hexadecimal {mark : Char} {digits behind : List Char}
    (isMark : mark = 'x' ∨ mark = 'X') (notEmpty : digits ≠ [])
    (run : IsRun isHexDigit digits behind)
    (short : byteLength ('0' :: mark :: digits) ≤ maxTokenLength) (pos : Nat) :
    ∃ span, scanNumber ⟨pos, '0' :: mark :: (digits ++ behind)⟩ =
      .ok (⟨'0' :: mark :: digits, span⟩,
        ⟨pos + byteLength ('0' :: mark :: digits), behind⟩) := by
  have marked : numeralMark ⟨pos, '0' :: mark :: (digits ++ behind)⟩ =
      (['0', mark], ⟨pos + 2, digits ++ behind⟩) := by
    rcases isMark with rfl | rfl <;> rfl
  have total : byteLength ('0' :: mark :: digits) = 2 + byteLength digits := by
    rcases isMark with rfl | rfl <;> simp [Char.utf8Size] <;> omega
  have length := byteLength_of_hexDigits run.inside
  rw [total] at short ⊢
  have taken := takeRun_of_isRun run (Nat.le_trans (Nat.le_add_left _ 2) short) (pos + 2)
  simp only [scanNumber, marked, digitAfter, taken, bind, Except.bind]
  rw [if_neg (by simpa using notEmpty), if_neg]
  · exact ⟨_, by rw [Nat.add_assoc]; rfl⟩
  · rw [← length]
    exact Nat.not_lt.mpr short

theorem scanText_sound {c next : Cursor} {raw : RawValue} (min max : Nat)
    (h : scanText c = .ok (raw, next)) : ∃ written, c.Passes written next ∧
      ValueText (.length min max) raw.chars written next.rest ∧
      byteLength raw.chars ≤ maxTokenLength ∧ c.Shows raw.span raw.chars := by
  unfold scanText at h
  split at h
  · next opened quote =>
    obtain ⟨⟨chars, closing⟩, run, h⟩ := bind_eq_ok.mp h
    dsimp only at h
    split at h
    · next behind closes =>
      cases h
      obtain ⟨passed, isRun, short⟩ := takeRun_spec run
      have opens := Cursor.passes_eat? quote
      refine ⟨_, opens.trans (passed.trans (Cursor.passes_eat? closes)), ?_, short, ?_⟩
      · exact .quoted isRun.inside
      · exact .intro opens passed
    · cases h
  · obtain ⟨⟨chars, behind⟩, run, h⟩ := bind_eq_ok.mp h
    dsimp only at h
    split at h
    · cases h
    · next some_ =>
      cases h
      obtain ⟨passed, isRun, short⟩ := takeRun_spec run
      exact ⟨chars, passed, .bare (by simpa using some_) isRun, short, passed.shows⟩

theorem scanText_of_quoted {chars : List Char} (inside : ∀ c ∈ chars, isQuotable c = true)
    (short : byteLength chars ≤ maxTokenLength) (pos : Nat) (behind : List Char) :
    ∃ span, scanText ⟨pos, '"' :: (chars ++ ['"']) ++ behind⟩ =
      .ok (⟨chars, span⟩, ⟨pos + byteLength ('"' :: (chars ++ ['"'])), behind⟩) := by
  have run : IsRun isQuotable chars ('"' :: behind) := by
    refine ⟨inside, ?_⟩
    intro c first
    cases first
    rfl
  have taken := takeRun_of_isRun run short (pos + '"'.utf8Size)
  have closed := Cursor.eat?_cons '"' (pos + '"'.utf8Size + byteLength chars) behind
  have opened := Cursor.eat?_cons '"' pos (chars ++ '"' :: behind)
  refine ⟨⟨pos + '"'.utf8Size, pos + '"'.utf8Size + byteLength chars⟩, ?_⟩
  rw [List.cons_append, List.append_assoc, List.singleton_append]
  simp only [scanText, opened, taken, bind, Except.bind, closed]
  simp only [byteLength_cons, byteLength_append, byteLength_nil, Nat.add_assoc, Nat.add_zero]

theorem scanText_of_bare {chars behind : List Char} (notEmpty : chars ≠ [])
    (run : IsRun isBare chars behind) (short : byteLength chars ≤ maxTokenLength) (pos : Nat) :
    scanText ⟨pos, chars ++ behind⟩ =
      .ok (⟨chars, ⟨pos, pos + byteLength chars⟩⟩, ⟨pos + byteLength chars, behind⟩) := by
  have unquoted : Cursor.eat? '"' ⟨pos, chars ++ behind⟩ = none := by
    apply Cursor.eat?_eq_none
    obtain ⟨first, more, rfl⟩ := List.exists_cons_of_ne_nil notEmpty
    have bare := run.inside first List.mem_cons_self
    intro same
    cases same
    exact absurd bare (by decide)
  have taken := takeRun_of_isRun run short pos
  simp only [scanText, unquoted, taken, bind, Except.bind]
  rw [if_neg (by simpa using notEmpty)]

theorem scanValue_sound {rule : Rule} {c next : Cursor} {raw : RawValue}
    (h : scanValue rule c = .ok (raw, next)) : ∃ written, c.Passes written next ∧
      ValueText rule raw.chars written next.rest ∧
      byteLength raw.chars ≤ maxTokenLength ∧ c.Shows raw.span raw.chars := by
  cases rule with
  | range min max =>
    obtain ⟨passed, value, short, span⟩ := scanNumber_sound min max h
    exact ⟨raw.chars, passed, value, short, by rw [span]; exact passed.shows⟩
  | length min max => exact scanText_sound min max h

theorem scanValue_of_valueText {rule : Rule} {raw written behind : List Char}
    (value : ValueText rule raw written behind) (short : byteLength raw ≤ maxTokenLength)
    (unmarked : Unmarked behind) (pos : Nat) :
    ∃ span, scanValue rule ⟨pos, written ++ behind⟩ =
      .ok (⟨raw, span⟩, ⟨pos + byteLength written, behind⟩) := by
  cases value with
  | decimal notEmpty run => exact ⟨_, scanNumber_of_decimal notEmpty run short unmarked pos⟩
  | hexadecimal isMark notEmpty run =>
    exact scanNumber_of_hexadecimal isMark notEmpty run short pos
  | quoted inside => exact scanText_of_quoted inside short pos behind
  | bare notEmpty run => exact ⟨_, scanText_of_bare notEmpty run short pos⟩

/-! ## Pairs -/

theorem scanPair_sound {c next : Cursor} {a : Assignment} (h : scanPair c = .ok (a, next)) :
    ∃ written, c.Passes written next ∧ PairText a.property a.value written next.rest ∧
      a.span = ⟨c.pos, next.pos⟩ := by
  unfold scanPair at h
  obtain ⟨⟨name, behindName⟩, run, h⟩ := bind_eq_ok.mp h
  dsimp only at h
  split at h
  · cases h
  · split at h
    · cases h
    · next property named =>
      split at h
      · cases h
      · next behindEquals equals =>
        obtain ⟨⟨raw, behind⟩, scanned, h⟩ := bind_eq_ok.mp h
        dsimp only at h
        split at h
        · cases h
        · next v valid =>
          cases h
          obtain ⟨passedName, -, -⟩ := takeRun_spec run
          obtain ⟨blanks, blank, passed⟩ := behindName.passes_skipBlanks
          obtain ⟨blanks', blank', passed'⟩ := behindEquals.passes_skipBlanks
          obtain ⟨written, passedValue, value, short, -⟩ := scanValue_sound scanned
          obtain ⟨means, admits⟩ := Property.validate_eq_ok_iff.mp valid
          have sign := Cursor.passes_eat? equals
          refine ⟨property.name.toList ++ (blanks ++ '=' :: (blanks' ++ written)), ?_, ?_, rfl⟩
          · rw [Property.name_of_ofName? named]
            exact passedName.trans (passed.trans (sign.trans (passed'.trans passedValue)))
          · exact .intro blank blank' value short means admits

theorem ValueText.visible {rule : Rule} {raw written behind : List Char}
    (value : ValueText rule raw written behind) :
    ∀ x, (written ++ behind).head? = some x → isBlank x = false := by
  intro x first
  cases value with
  | decimal notEmpty run =>
    obtain ⟨d, more, rfl⟩ := List.exists_cons_of_ne_nil notEmpty
    cases first
    have digit := run.inside x List.mem_cons_self
    exact isBlank_of_isAlphanumeric (isAlphanumeric_of_isDigit digit)
  | hexadecimal =>
    cases first
    rfl
  | quoted =>
    cases first
    rfl
  | bare notEmpty run =>
    obtain ⟨d, more, rfl⟩ := List.exists_cons_of_ne_nil notEmpty
    cases first
    have bare := run.inside x List.mem_cons_self
    simp only [isBare, Bool.and_eq_true, decide_eq_true_eq, and_assoc] at bare
    simp only [isBlank, decide_eq_false_iff_not, Char.not_le]
    exact bare.1

/-- The name of a property ends where the blanks in front of the sign begin. -/
theorem isRun_name (p : Property) {blanks : List Char} (blank : Blanks blanks)
    (behind : List Char) : IsRun isAlphanumeric p.name.toList (blanks ++ '=' :: behind) := by
  refine ⟨p.alphanumeric_name, ?_⟩
  intro c first
  cases blanks with
  | nil =>
    cases first
    rfl
  | cons b bs =>
    cases first
    by_contra letter
    rw [Bool.not_eq_false] at letter
    have visible := isBlank_of_isAlphanumeric letter
    rw [blank _ List.mem_cons_self] at visible
    cases visible

theorem scanPair_of_pairText {p : Property} {v : Value} {written behind : List Char}
    (pair : PairText p v written behind) (unmarked : Unmarked behind) (pos : Nat) :
    scanPair ⟨pos, written ++ behind⟩ =
      .ok (⟨p, v, ⟨pos, pos + byteLength written⟩⟩, ⟨pos + byteLength written, behind⟩) := by
  cases pair with
  | @intro blanks blanks' raw text _ blank blank' value short means admits =>
    let rest := blanks ++ '=' :: (blanks' ++ (text ++ behind))
    let start := pos + byteLength p.name.toList
    have name : IsRun isAlphanumeric p.name.toList rest := isRun_name p blank _
    have nameFits : byteLength p.name.toList ≤ maxTokenLength := by
      cases p <;> decide
    obtain ⟨first, more, nameCons, -⟩ := p.exists_name_eq_cons
    have notEmpty : p.name.toList.isEmpty = false := by rw [nameCons]; rfl
    have named : Property.ofName? (String.ofList p.name.toList) = some p := by
      rw [String.ofList_toList, Property.ofName?_name]
    have sign : (Cursor.skipBlanks ⟨start, rest⟩).eat? '=' =
        some ⟨start + byteLength blanks + 1, blanks' ++ (text ++ behind)⟩ := by
      rw [Cursor.skipBlanks_append blank, Cursor.skipBlanks_of_head]
      · exact Cursor.eat?_cons '=' _ _
      · intro x isFirst
        cases isFirst
        rfl
    have begin : Cursor.skipBlanks ⟨start + byteLength blanks + 1, blanks' ++ (text ++ behind)⟩ =
        ⟨start + byteLength blanks + 1 + byteLength blanks', text ++ behind⟩ := by
      rw [Cursor.skipBlanks_append blank', Cursor.skipBlanks_of_head value.visible]
    obtain ⟨span, scanned⟩ := scanValue_of_valueText value short unmarked
      (start + byteLength blanks + 1 + byteLength blanks')
    have valid : p.validate (RawValue.text ⟨raw, span⟩) = .ok v :=
      Property.validate_eq_ok_iff.mpr ⟨means, admits⟩
    have whole : (p.name.toList ++ (blanks ++ '=' :: (blanks' ++ text))) ++ behind =
        p.name.toList ++ rest := by
      simp [rest]
    have length : start + byteLength blanks + 1 + byteLength blanks' + byteLength text =
        pos + byteLength (p.name.toList ++ (blanks ++ '=' :: (blanks' ++ text))) := by
      have one : '='.utf8Size = 1 := rfl
      simp only [start, byteLength_append, byteLength_cons, one]
      omega
    rw [whole, ← length]
    simp only [scanPair, takeRun_of_isRun name nameFits pos, bind, Except.bind, notEmpty, named]
    rw [if_neg (by simp)]
    simp only [show pos + byteLength p.name.toList = start from rfl, sign, begin, scanned, valid]

theorem unmarked_append {bs cs : List Char} (blank : Blanks bs) (unmarked : Unmarked cs) :
    Unmarked (bs ++ cs) := by
  cases bs with
  | nil => exact unmarked
  | cons b bs =>
    intro x first
    cases first
    have isBlank := blank _ List.mem_cons_self
    constructor <;> rintro rfl <;> exact absurd isBlank (by decide)

theorem unmarked_gap {gap cs : List Char} (isGap : Gap gap) (unmarked : Unmarked cs) :
    Unmarked (gap ++ cs) := by
  cases isGap with
  | blanks blank => exact unmarked_append blank unmarked
  | separator blank mark blank' =>
    rw [List.append_assoc]
    apply unmarked_append blank
    intro x first
    cases first
    rcases mark with rfl | rfl <;> decide

theorem unmarked_bracket (cs : List Char) : Unmarked (']' :: cs) := by
  intro x first
  cases first
  decide

namespace PairText

variable {p : Property} {v : Value} {written behind : List Char}

/-- A pair begins with the first letter of a name. -/
theorem exists_eq_cons (h : PairText p v written behind) : ∃ c cs, written = c :: cs ∧
    isAlphanumeric c = true ∧ isBlank c = false ∧ c ≠ 'x' ∧ c ≠ 'X' := by
  cases h with
  | intro =>
    obtain ⟨c, cs, name, facts⟩ := p.exists_name_eq_cons
    rw [name]
    exact ⟨c, _, rfl, facts⟩

theorem unmarked (h : PairText p v written behind) (cs : List Char) : Unmarked (written ++ cs) := by
  obtain ⟨c, rest, rfl, -, -, unmarked⟩ := h.exists_eq_cons
  intro x first
  cases first
  exact unmarked

theorem skipBlanks_append {blanks : List Char} (h : PairText p v written behind)
    (blank : Blanks blanks) (pos : Nat) (cs : List Char) :
    Cursor.skipBlanks ⟨pos, blanks ++ (written ++ cs)⟩ =
      ⟨pos + byteLength blanks, written ++ cs⟩ := by
  obtain ⟨c, rest, rfl, -, visible, -⟩ := h.exists_eq_cons
  rw [Cursor.skipBlanks_append blank]
  apply Cursor.skipBlanks_of_head
  intro x first
  cases first
  exact visible

end PairText

namespace PairsText

variable {pos : Nat} {pairs : List Assignment} {text behind : List Char}

theorem unmarked (h : PairsText pos pairs text behind) : Unmarked text := by
  cases h with
  | last blank pair => exact unmarked_append blank (pair.unmarked _)
  | more blank pair => exact unmarked_append blank (pair.unmarked _)

/-- Behind blanks the pairs begin with a letter. -/
theorem exists_dropWhile_eq (h : PairsText pos pairs text behind) :
    ∃ c cs, text.dropWhile isBlank = c :: cs ∧ isAlphanumeric c = true := by
  have begins : ∃ blanks p v written after behind', Blanks blanks ∧
      PairText p v written behind' ∧ text = blanks ++ (written ++ after) := by
    cases h with
    | last blank pair => exact ⟨_, _, _, _, _, _, blank, pair, rfl⟩
    | more blank pair => exact ⟨_, _, _, _, _, _, blank, pair, rfl⟩
  obtain ⟨blanks, p, v, written, after, behind', blank, pair, rfl⟩ := begins
  obtain ⟨c, cs, rfl, letter, visible, -⟩ := pair.exists_eq_cons
  refine ⟨c, cs ++ after, ?_, letter⟩
  rw [List.dropWhile_append_of_pos blank]
  simp [visible]

end PairsText

theorem scanPairs_of_last {c next closed : Cursor} {a : Assignment}
    (pair : scanPair c.skipBlanks = .ok (a, next))
    (closes : next.skipSeparator.eat? ']' = some closed) : scanPairs c = ([a], .ok closed) := by
  rw [scanPairs]
  split
  · next failed =>
    rw [pair] at failed
    cases failed
  · next found =>
    rw [pair] at found
    cases found
    dsimp only
    rw [closes]

theorem scanPairs_of_more {c next : Cursor} {a : Assignment}
    (pair : scanPair c.skipBlanks = .ok (a, next))
    (opened : next.skipSeparator.eat? ']' = none) (inside : next.skipSeparator.atEnd = false) :
    scanPairs c =
      (a :: (scanPairs next.skipSeparator).1, (scanPairs next.skipSeparator).2) := by
  rw [scanPairs]
  split
  · next failed =>
    rw [pair] at failed
    cases failed
  · next found =>
    rw [pair] at found
    cases found
    dsimp only
    rw [opened]
    dsimp only
    rw [if_neg (by simp [inside])]

/-- What one round of the loop takes: a pair, the blanks in front of it and the gap behind it. -/
theorem exists_passes_skipSeparator {c next : Cursor} {a : Assignment}
    (scanned : scanPair c.skipBlanks = .ok (a, next)) : ∃ blanks written gap, Blanks blanks ∧
      Gap gap ∧ c.Passes (blanks ++ (written ++ gap)) next.skipSeparator ∧
      PairText a.property a.value written (gap ++ next.skipSeparator.rest) ∧
      a.span = ⟨c.pos + byteLength blanks, c.pos + byteLength blanks + byteLength written⟩ := by
  obtain ⟨blanks, blank, front⟩ := c.passes_skipBlanks
  obtain ⟨written, across, pair, place⟩ := scanPair_sound scanned
  obtain ⟨gap, isGap, back⟩ := next.passes_skipSeparator
  refine ⟨blanks, written, gap, blank, isGap, front.trans (across.trans back), ?_, ?_⟩
  · rw [← back.rest]
    exact pair
  · rw [place, across.pos, front.pos]

theorem scanPairs_sound {c next : Cursor} (h : (scanPairs c).2 = .ok next) :
    PairsText c.pos (scanPairs c).1 c.rest next.rest ∧ ∃ run, c.Passes run next := by
  fun_induction scanPairs c with
  | case1 => cases h
  | case2 c pair behind scanned gap closed closes =>
    cases h
    obtain ⟨property, value, span⟩ := pair
    obtain ⟨blanks, written, gap, blank, isGap, across, pair, rfl⟩ :=
      exists_passes_skipSeparator scanned
    have bracket := Cursor.passes_eat? closes
    have whole := across.trans bracket
    refine ⟨?_, _, whole⟩
    rw [bracket.rest] at pair
    rw [whole.rest]
    simp only [List.append_assoc]
    exact .last blank pair isGap
  | case3 => cases h
  | case4 c pair behind scanned gap opened inside shorter more ih =>
    obtain ⟨property, value, span⟩ := pair
    obtain ⟨blanks, written, gap, blank, isGap, across, pair, rfl⟩ :=
      exists_passes_skipSeparator scanned
    obtain ⟨rest, run, passed⟩ := ih h
    refine ⟨?_, _, across.trans passed⟩
    rw [across.pos] at rest
    rw [across.rest]
    simp only [List.append_assoc]
    exact .more blank pair isGap rest

theorem scanPairs_of_pairsText {pos : Nat} {pairs : List Assignment} {text behind : List Char}
    (h : PairsText pos pairs text behind) :
    ∀ c : Cursor, c.skipBlanks = Cursor.skipBlanks ⟨pos, text⟩ →
      ∃ stop, scanPairs c = (pairs, .ok ⟨stop, behind⟩) := by
  -- the gap behind a pair takes the blanks of the next one, so any cursor in them will do
  induction h with
  | @last pos p v blanks written gap behind blank pair isGap =>
    intro c same
    have start := same.trans (pair.skipBlanks_append blank pos (gap ++ ']' :: behind))
    have scanned := scanPair_of_pairText pair (unmarked_gap isGap (unmarked_bracket _))
      (pos + byteLength blanks)
    rw [← start] at scanned
    have bracket : Cursor.skipSeparator
        ⟨pos + byteLength blanks + byteLength written, gap ++ ']' :: behind⟩ =
        ⟨pos + byteLength blanks + byteLength written + byteLength gap, ']' :: behind⟩ := by
      rw [Cursor.skipSeparator_append isGap, Cursor.skipBlanks_of_head]
      · intro x first
        cases first
        rfl
      · intro x first
        cases first
        decide
    have closes := Cursor.eat?_cons ']'
      (pos + byteLength blanks + byteLength written + byteLength gap) behind
    rw [← bracket] at closes
    exact ⟨_, scanPairs_of_last scanned closes⟩
  | @more pos p v pairs blanks written gap text behind blank pair isGap rest ih =>
    intro c same
    have start := same.trans (pair.skipBlanks_append blank pos (gap ++ text))
    have scanned := scanPair_of_pairText pair (unmarked_gap isGap rest.unmarked)
      (pos + byteLength blanks)
    rw [← start] at scanned
    obtain ⟨x, xs, first, letter⟩ := rest.exists_dropWhile_eq
    have front : Cursor.skipSeparator
        ⟨pos + byteLength blanks + byteLength written, gap ++ text⟩ =
        Cursor.skipBlanks ⟨pos + byteLength (blanks ++ (written ++ gap)), text⟩ := by
      rw [Cursor.skipSeparator_append isGap]
      · simp only [byteLength_append, Nat.add_assoc]
      · intro y isFirst
        rw [first] at isFirst
        cases isFirst
        rintro (rfl | rfl) <;> exact absurd letter (by decide)
    have opened : (Cursor.skipSeparator
        ⟨pos + byteLength blanks + byteLength written, gap ++ text⟩).rest = x :: xs := by
      rw [front]
      exact first
    obtain ⟨stop, more⟩ := ih (Cursor.skipSeparator
        ⟨pos + byteLength blanks + byteLength written, gap ++ text⟩) (by
      rw [front, Cursor.skipBlanks_skipBlanks])
    refine ⟨stop, ?_⟩
    rw [scanPairs_of_more scanned, more]
    · apply Cursor.eat?_eq_none
      rw [opened]
      intro bracket
      cases bracket
      exact absurd letter (by decide)
    · rw [Cursor.atEnd, opened]
      rfl

end Line

end TreeDiagram
