import TreeDiagram.Proofs.Text.Letter
import TreeDiagram.Proofs.Text.Numeral
/-!
# Digits and the numbers they write

A digit stands for its place in the order of the digits, and what stands in front of a digit counts
as many times as the base. This is what numerals are read as, at any length, and how numbers are
written. A number computed digit by digit in a register is the same as long as it fits there, since
it never gets smaller on the way.
-/

namespace TreeDiagram

namespace Numeral

/-- A digit of a base stands for its place in the order of the digits, as a small letter or as a
capital. -/
def DigitOf (base : Nat) (c : Char) (d : Nat) : Prop :=
  d < base ∧ ("0123456789abcdef".toList[d]? = some c ∨ "0123456789ABCDEF".toList[d]? = some c)

/-- A run of digits of a base writes a number. What stands in front of its last digit counts as many
times as the base. -/
inductive Writes (base : Nat) : List Char → Nat → Prop
  | digit {c : Char} {d : Nat} (stands : DigitOf base c d) : Writes base [c] d
  | more {digits : List Char} {n d : Nat} {c : Char} (before : Writes base digits n)
      (stands : DigitOf base c d) : Writes base (digits ++ [c]) (n * base + d)

/-- A text spells a number: with decimal digits, or with hexadecimal digits behind a mark. -/
inductive Spells : List Char → Nat → Prop
  | decimal {digits : List Char} {n : Nat} (writes : Writes 10 digits n) : Spells digits n
  | hexadecimal {mark : Char} {digits : List Char} {n : Nat} (isMark : mark = 'x' ∨ mark = 'X')
      (writes : Writes 16 digits n) : Spells ('0' :: mark :: digits) n

/-- What is true of the hexadecimal digits among the characters of one byte is true of all. -/
theorem of_isHexDigit (P : Char → Prop)
    (each : ∀ n < 128, isHexDigit (Char.ofNat n) = true → P (Char.ofNat n)) {c : Char}
    (digit : isHexDigit c = true) : P c := by
  have one := utf8Size_of_isHexDigit digit
  rw [Char.utf8Size_eq_one_iff, UInt32.le_iff_toNat_le] at one
  have here := each c.toNat (Nat.lt_succ_of_le one)
  rw [Char.ofNat_toNat] at here
  exact here digit

theorem digitOf_digitValue {c : Char} (digit : isHexDigit c = true) :
    DigitOf 16 c (digitValue c) :=
  of_isHexDigit (fun c => DigitOf 16 c (digitValue c)) (by unfold DigitOf; decide) digit

theorem digitValue_lt_ten_iff {c : Char} (digit : isHexDigit c = true) :
    digitValue c < 10 ↔ isDigit c = true :=
  of_isHexDigit (fun c => digitValue c < 10 ↔ isDigit c = true) (by decide) digit

theorem digitOf_sixteen_iff {c : Char} {d : Nat} :
    DigitOf 16 c d ↔ isHexDigit c = true ∧ digitValue c = d := by
  constructor
  · rintro ⟨small, place⟩
    have lower : ∀ d < 16, ("0123456789abcdef".toList[d]?.all fun c =>
        isHexDigit c && digitValue c == d) = true := by decide
    have upper : ∀ d < 16, ("0123456789ABCDEF".toList[d]?.all fun c =>
        isHexDigit c && digitValue c == d) = true := by decide
    have here : (isHexDigit c && digitValue c == d) = true := by
      rcases place with found | found
      · have each := lower d small
        rwa [found, Option.all_some] at each
      · have each := upper d small
        rwa [found, Option.all_some] at each
    simpa using here
  · rintro ⟨digit, rfl⟩
    exact digitOf_digitValue digit

theorem digitOf_iff (radix : Radix) {c : Char} {d : Nat} :
    DigitOf radix.base c d ↔ radix.isDigit c = true ∧ digitValue c = d := by
  cases radix with
  | hexadecimal => exact digitOf_sixteen_iff
  | decimal =>
    constructor
    · rintro ⟨small, place⟩
      have below : d < 16 := Nat.lt_trans small (by decide)
      obtain ⟨digit, rfl⟩ := digitOf_sixteen_iff.mp ⟨below, place⟩
      exact ⟨(digitValue_lt_ten_iff digit).mp small, rfl⟩
    · rintro ⟨digit, rfl⟩
      have hexDigit := isHexDigit_of_isDigit digit
      exact ⟨(digitValue_lt_ten_iff hexDigit).mpr digit, (digitOf_digitValue hexDigit).2⟩

/-! ## Numerals -/

theorem value_concat (radix : Radix) (digits : List Char) (c : Char) :
    value radix (digits ++ [c]) = value radix digits * radix.base + digitValue c := by
  rw [value, List.foldl_append]
  rfl

theorem writes_iff (radix : Radix) {cs : List Char} {n : Nat} : Writes radix.base cs n ↔
    cs ≠ [] ∧ (∀ c ∈ cs, radix.isDigit c = true) ∧ value radix cs = n := by
  constructor
  · intro writes
    induction writes with
    | @digit c d stands =>
      obtain ⟨digit, rfl⟩ := (digitOf_iff radix).mp stands
      exact ⟨List.cons_ne_nil _ _, by simpa using digit, by simp [value]⟩
    | @more digits n d c before stands ih =>
      obtain ⟨digit, rfl⟩ := (digitOf_iff radix).mp stands
      obtain ⟨-, others, rfl⟩ := ih
      refine ⟨by simp, ?_, value_concat radix digits c⟩
      intro x member
      rcases List.mem_append.mp member with early | last
      · exact others x early
      · rw [List.mem_singleton.mp last]
        exact digit
  · rintro ⟨notEmpty, digits, rfl⟩
    induction cs using List.reverseRecOn with
    | nil => exact absurd rfl notEmpty
    | append_singleton cs c ih =>
      have stands := (digitOf_iff radix).mpr ⟨digits c (by simp), rfl⟩
      rw [value_concat]
      by_cases first : cs = []
      · subst first
        have alone : value radix [] * radix.base + digitValue c = digitValue c := by
          rw [value, List.foldl_nil, Nat.zero_mul, Nat.zero_add]
        rw [alone]
        exact .digit stands
      · exact .more (ih first fun d member => digits d (by simp [member])) stands

theorem ofDigits?_eq_some_iff_writes {radix : Radix} {cs : List Char} {n : Nat} :
    ofDigits? radix cs = some n ↔ Writes radix.base cs n := by
  rw [writes_iff, ofDigits?_eq_some_iff, value_eq_ofDigits]

theorem denotes_iff_spells {cs : List Char} {n : Nat} : Denotes cs n ↔ Spells cs n := by
  constructor
  · intro denotes
    cases denotes with
    | decimal notEmpty all =>
      exact .decimal (ofDigits?_eq_some_iff_writes.mp
        (ofDigits?_eq_some_iff.mpr ⟨notEmpty, all, rfl⟩ : ofDigits? .decimal cs = _))
    | @hexadecimal mark digits isMark notEmpty all =>
      exact .hexadecimal isMark (ofDigits?_eq_some_iff_writes.mp
        (ofDigits?_eq_some_iff.mpr ⟨notEmpty, all, rfl⟩ : ofDigits? .hexadecimal digits = _))
  · intro spells
    cases spells with
    | decimal writes =>
      obtain ⟨notEmpty, all, rfl⟩ := (writes_iff .decimal).mp writes
      rw [value_eq_ofDigits]
      exact .decimal notEmpty all
    | hexadecimal isMark writes =>
      obtain ⟨notEmpty, all, rfl⟩ := (writes_iff .hexadecimal).mp writes
      rw [value_eq_ofDigits]
      exact .hexadecimal isMark notEmpty all

/-- A text is read as the number that it spells. -/
theorem read?_eq_some_iff_spells {cs : List Char} {n : Nat} : read? cs = some n ↔ Spells cs n := by
  rw [read?_eq_some_iff, denotes_iff_spells]

/-! ## Written numbers -/

theorem digitOf_digitChar {base d : Nat} (small : d < base) (valid : base ≤ 16) :
    DigitOf base (Nat.digitChar d) d := by
  have each : ∀ d < 16, "0123456789abcdef".toList[d]? = some (Nat.digitChar d) := by decide
  exact ⟨small, .inl (each d (Nat.lt_of_lt_of_le small valid))⟩

/-- The digits of a number in a base write the number. -/
theorem writes_toDigits {base : Nat} (valid : 1 < base ∧ base ≤ 16) (n : Nat) :
    Writes base (Nat.toDigits base n) n := by
  induction n using Nat.strongRecOn with
  | _ n ih =>
    rw [Nat.toDigits_eq_if valid.1]
    split
    · next small => exact .digit (digitOf_digitChar small valid.2)
    · next large =>
      have positive : 0 < n := by omega
      have front := ih (n / base) (Nat.div_lt_self positive valid.1)
      have last := digitOf_digitChar (Nat.mod_lt n (by omega)) valid.2
      have whole := Writes.more front last
      rwa [Nat.div_add_mod'] at whole

/-- A number written in decimal is a numeral for it. -/
theorem denotes_toString (n : Nat) : Denotes (toString n).toList n := by
  rw [toList_toString]
  exact denotes_iff_spells.mpr (.decimal (writes_toDigits (by decide) n))

/-! ## Registers -/

/-- A register of a number of bits after one more digit, nothing if the value does not fit. -/
def pushDigit? (bits : Nat) (radix : Radix) (n : Nat) (c : Char) : Option Nat :=
  if n * radix.base + digitValue c < 2 ^ bits then some (n * radix.base + digitValue c) else none

/-- The value of a run of digits computed digit by digit in a register. -/
def inRegister? (bits : Nat) (radix : Radix) (digits : List Char) : Option Nat :=
  digits.foldlM (pushDigit? bits radix) 0

/-- The value of a text that is a non-empty run of digits, computed in a register. -/
def ofDigitsIn? (bits : Nat) (radix : Radix) (cs : List Char) : Option Nat :=
  if !cs.isEmpty && cs.all radix.isDigit then inRegister? bits radix cs else none

/-- The value of a text that is a numeral, computed in a register. -/
def readIn? (bits : Nat) (cs : List Char) : Option Nat :=
  match afterMark? cs with
  | some digits => ofDigitsIn? bits .hexadecimal digits
  | none => ofDigitsIn? bits .decimal cs

/-- A number gets no smaller by digits behind it. -/
theorem le_foldl_value (radix : Radix) (digits : List Char) (n : Nat) :
    n ≤ digits.foldl (fun n c => n * radix.base + digitValue c) n := by
  induction digits generalizing n with
  | nil => exact Nat.le_refl n
  | cons c digits ih =>
    have base : 1 ≤ radix.base := by cases radix <;> decide
    calc n ≤ n * radix.base := Nat.le_mul_of_pos_right n base
      _ ≤ n * radix.base + digitValue c := Nat.le_add_right _ _
      _ ≤ _ := ih _

theorem inRegister?_eq (bits : Nat) (radix : Radix) (digits : List Char) :
    inRegister? bits radix digits =
      if value radix digits < 2 ^ bits then some (value radix digits) else none := by
  let push (n : Nat) (c : Char) : Nat := n * radix.base + digitValue c
  have go (n : Nat) (fits : n < 2 ^ bits) : digits.foldlM (pushDigit? bits radix) n =
      if digits.foldl push n < 2 ^ bits then some (digits.foldl push n) else none := by
    induction digits generalizing n with
    | nil => exact (if_pos fits).symm
    | cons c digits ih =>
      rw [List.foldlM_cons, List.foldl_cons, pushDigit?]
      by_cases next : push n c < 2 ^ bits
      · rw [if_pos next]
        exact ih _ next
      · -- what does not fit now will not fit later either
        have later : push n c ≤ digits.foldl push (push n c) := le_foldl_value radix digits _
        rw [if_neg next, if_neg (by omega)]
        rfl
  exact go 0 (Nat.two_pow_pos bits)

theorem ofDigitsIn?_eq (bits : Nat) (radix : Radix) (cs : List Char) :
    ofDigitsIn? bits radix cs = (ofDigits? radix cs).filter (· < 2 ^ bits) := by
  unfold ofDigitsIn? ofDigits?
  split
  · rw [inRegister?_eq, Option.filter_some]
    simp only [decide_eq_true_eq]
  · rfl

/-- In a register a numeral is read as ever, unless its value does not fit. -/
theorem readIn?_eq (bits : Nat) (cs : List Char) :
    readIn? bits cs = (read? cs).filter (· < 2 ^ bits) := by
  unfold readIn? read?
  cases afterMark? cs with
  | some digits => exact ofDigitsIn?_eq bits .hexadecimal digits
  | none => exact ofDigitsIn?_eq bits .decimal cs

end Numeral

end TreeDiagram
