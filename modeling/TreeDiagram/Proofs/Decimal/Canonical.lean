import Mathlib.Data.Nat.Digits.Lemmas
import TreeDiagram.Decimal.Fixed
import TreeDiagram.Decimal.Reader
import TreeDiagram.Proofs.Decimal.Value
import TreeDiagram.Proofs.Text.Digits
/-!
# Canonical decimals

A decimal has a sign, digits in front of its point and digits behind it. It is canonical if it has
no digit that could be left out and no sign in front of zero. Every text of such parts is read as
its parts again, and a number has one canonical decimal at most.
-/

namespace TreeDiagram

namespace Numeral

theorem digitChar_digitValue {c : Char} (digit : isDigit c = true) :
    Nat.digitChar (digitValue c) = c :=
  of_isHexDigit (fun c => isDigit c = true → Nat.digitChar (digitValue c) = c) (by decide)
    (isHexDigit_of_isDigit digit) digit

theorem digitValue_lt_ten {c : Char} (digit : isDigit c = true) : digitValue c < 10 :=
  (digitValue_lt_ten_iff (isHexDigit_of_isDigit digit)).mpr digit

theorem value_append (front back : List Char) : value .decimal (front ++ back) =
    value .decimal front * 10 ^ back.length + value .decimal back := by
  induction back using List.reverseRecOn with
  | nil => simp [value]
  | append_singleton back c ih =>
    rw [← List.append_assoc, value_concat, ih, value_concat, List.length_append,
      List.length_singleton, Nat.pow_succ]
    change _ * 10 + _ = _ + (_ * 10 + _)
    ring

theorem value_lt {digits : List Char} (all : ∀ c ∈ digits, isDigit c = true) :
    value .decimal digits < 10 ^ digits.length := by
  induction digits using List.reverseRecOn with
  | nil => decide
  | append_singleton digits c ih =>
    rw [List.forall_mem_append, List.forall_mem_singleton] at all
    have front := ih all.1
    have last := digitValue_lt_ten all.2
    rw [value_concat, List.length_append, List.length_singleton, Nat.pow_succ]
    change _ * 10 + _ < _
    omega

/-- The digits in front of others count as many times as there are numbers of those. -/
theorem value_append_div {back : List Char} (all : ∀ c ∈ back, isDigit c = true)
    (front : List Char) :
    value .decimal (front ++ back) / 10 ^ back.length = value .decimal front := by
  have positive : 0 < 10 ^ back.length := Nat.pow_pos (by decide)
  rw [value_append, Nat.mul_comm, Nat.mul_add_div positive, Nat.div_eq_of_lt (value_lt all),
    Nat.add_zero]

theorem value_append_mod {back : List Char} (all : ∀ c ∈ back, isDigit c = true)
    (front : List Char) :
    value .decimal (front ++ back) % 10 ^ back.length = value .decimal back := by
  rw [value_append, Nat.mul_comm, Nat.mul_add_mod, Nat.mod_eq_of_lt (value_lt all)]

/-- Digits are determined by their number and their value. -/
theorem eq_of_value_eq {as bs : List Char} (asDigits : ∀ c ∈ as, isDigit c = true)
    (bsDigits : ∀ c ∈ bs, isDigit c = true) (length : as.length = bs.length)
    (same : value .decimal as = value .decimal bs) : as = bs := by
  induction as using List.reverseRecOn generalizing bs with
  | nil => exact (List.eq_nil_of_length_eq_zero length.symm).symm
  | append_singleton as a ih =>
    rcases List.eq_nil_or_concat bs with rfl | ⟨bs, b, rfl⟩
    · simp at length
    · rw [List.concat_eq_append] at *
      rw [List.forall_mem_append, List.forall_mem_singleton] at asDigits bsDigits
      rw [value_concat, value_concat] at same
      change _ * 10 + _ = _ * 10 + _ at same
      have aSmall := digitValue_lt_ten asDigits.2
      have bSmall := digitValue_lt_ten bsDigits.2
      have front : as = bs := ih asDigits.1 bsDigits.1 (by simpa using length) (by omega)
      have last : digitValue a = digitValue b := by omega
      rw [front, ← digitChar_digitValue asDigits.2, last, digitChar_digitValue bsDigits.2]

/-- Digits without a zero in front of others are the digits of their value. -/
theorem toDigits_value {digits : List Char} (all : ∀ c ∈ digits, isDigit c = true)
    (notEmpty : digits ≠ []) (leading : digits.head? = some '0' → digits = ['0']) :
    Nat.toDigits 10 (value .decimal digits) = digits := by
  induction digits using List.reverseRecOn with
  | nil => exact absurd rfl notEmpty
  | append_singleton digits c ih =>
    rw [List.forall_mem_append, List.forall_mem_singleton] at all
    have small := digitValue_lt_ten all.2
    have last := digitChar_digitValue all.2
    rw [value_concat]
    change Nat.toDigits 10 (value .decimal digits * 10 + digitValue c) = _
    by_cases alone : digits = []
    · subst alone
      change Nat.toDigits 10 (0 * 10 + digitValue c) = [c]
      rw [Nat.zero_mul, Nat.zero_add, Nat.toDigits_of_lt_base small, last]
    · have noZero : digits.head? ≠ some '0' := by
        intro zero
        have short := leading (by rw [List.head?_append_of_ne_nil _ alone, zero])
        exact alone (List.append_eq_singleton_iff.mp short |>.resolve_right (by simp)).1
      have front := ih all.1 alone fun zero => absurd zero noZero
      have positive : value .decimal digits ≠ 0 := by
        intro zero
        rw [zero] at front
        exact noZero (by rw [← front]; rfl)
      have large : ¬value .decimal digits * 10 + digitValue c < 10 := by omega
      rw [Nat.toDigits_eq_if (by decide), if_neg large]
      rw [show (value .decimal digits * 10 + digitValue c) / 10 = value .decimal digits by omega]
      rw [show (value .decimal digits * 10 + digitValue c) % 10 = digitValue c by omega]
      rw [front, last]

theorem digits_toDigits (n : Nat) : (∀ c ∈ Nat.toDigits 10 n, isDigit c = true) ∧
    value .decimal (Nat.toDigits 10 n) = n :=
  ((writes_iff .decimal).mp (writes_toDigits (by decide) n)).2

/-- The digits of a positive number do not begin with zero. -/
theorem head?_toDigits {n : Nat} (positive : 0 < n) : (Nat.toDigits 10 n).head? ≠ some '0' := by
  induction n using Nat.strongRecOn with
  | _ n ih =>
    rw [Nat.toDigits_eq_if (by decide)]
    split
    · next small =>
      have each : ∀ n < 10, 0 < n → [Nat.digitChar n].head? ≠ some '0' := by decide
      exact each n small positive
    · next large =>
      rw [List.head?_append_of_ne_nil _ Nat.toDigits_ne_nil]
      exact ih (n / 10) (by omega) (by omega)

end Numeral

namespace Decimal

theorem leadingSign_of_isDigit {c : Char} {cs : List Char} (digit : isDigit c = true) :
    leadingSign (c :: cs) = (false, c :: cs) := by
  unfold leadingSign
  split
  · next same =>
    rw [(List.cons.inj same).1] at digit
    exact absurd digit (by decide)
  · next same =>
    rw [(List.cons.inj same).1] at digit
    exact absurd digit (by decide)
  · rfl

theorem leadingSign_signText (negative : Bool) {c : Char} (digit : isDigit c = true)
    (cs : List Char) :
    leadingSign ((signText negative).toList ++ c :: cs) = (negative, c :: cs) := by
  cases negative with
  | true => rfl
  | false => exact leadingSign_of_isDigit digit

theorem leadingDigits_append {digits rest : List Char} (all : ∀ c ∈ digits, isDigit c = true)
    (stop : ∀ c ∈ rest.head?, isDigit c = false) :
    leadingDigits (digits ++ rest) = (digits, rest) := by
  rw [leadingDigits, List.takeWhile_append_of_pos all, List.dropWhile_append_of_pos all]
  cases rest with
  | nil => simp
  | cons c rest => simp [stop c rfl]

/-- What a decimal consists of: a sign, the digits in front of the point and those behind it. -/
structure Parts where
  negative : Bool
  whole : List Char
  decimals : List Char

namespace Parts

/-- The text of a decimal, with a point only if there are digits behind it. -/
def text (p : Parts) : List Char :=
  (signText p.negative).toList ++ p.whole ++ if p.decimals = [] then [] else '.' :: p.decimals

/-- The magnitude of a decimal. -/
def magnitude (p : Parts) : ℚ :=
  Numeral.value .decimal (p.whole ++ p.decimals) / 10 ^ p.decimals.length

/-- The number that a decimal writes. -/
def value (p : Parts) : ℚ :=
  signed p.negative p.magnitude

/-- The parts of a text that is a decimal. -/
def read? (cs : List Char) : Option Parts :=
  let (negative, unsigned) := leadingSign cs
  let (whole, behind) := leadingDigits unsigned
  let (decimals, rest) :=
    match behind with
    | '.' :: behind => leadingDigits behind
    | _ => ([], behind)
  if rest.isEmpty && !(whole ++ decimals).isEmpty then some ⟨negative, whole, decimals⟩ else none

/-- A decimal without anything that could be left out. -/
structure Canonical (p : Parts) : Prop where
  digits : ∀ c ∈ p.whole ++ p.decimals, isDigit c = true
  whole_ne_nil : p.whole ≠ []
  leading : p.whole.head? = some '0' → p.whole = ['0']
  trailing : p.decimals.getLast? ≠ some '0'
  sign : p.negative = true → p.value ≠ 0

variable {p q : Parts}

theorem magnitude_nonneg (p : Parts) : 0 ≤ p.magnitude := by
  unfold magnitude
  positivity

namespace Canonical

theorem negative_iff (canonical : p.Canonical) : p.negative = true ↔ p.value < 0 := by
  have size := p.magnitude_nonneg
  constructor
  · intro negative
    have apart := canonical.sign negative
    rw [value, signed, if_pos negative] at apart ⊢
    exact lt_of_le_of_ne (neg_nonpos.mpr size) apart
  · intro below
    by_contra positive
    rw [value, signed, if_neg positive] at below
    exact absurd size (not_le.mpr below)

/-- The text of a canonical decimal is read as the same decimal. -/
theorem read?_text (canonical : p.Canonical) : read? p.text = some p := by
  obtain ⟨negative, whole, decimals⟩ := p
  obtain ⟨wholeDigits, decimalDigits⟩ := List.forall_mem_append.mp canonical.digits
  obtain ⟨c, cs, rfl⟩ := List.exists_cons_of_ne_nil canonical.whole_ne_nil
  have sign := leadingSign_signText negative (wholeDigits c List.mem_cons_self)
  simp only [read?, text, List.append_assoc, List.cons_append, sign]
  rw [← List.cons_append]
  by_cases none : decimals = []
  · rw [if_pos none, leadingDigits_append wholeDigits (by simp), none]
    rfl
  · have point : isDigit '.' = false := rfl
    have behind : leadingDigits (decimals ++ []) = (decimals, []) :=
      leadingDigits_append decimalDigits (by simp)
    rw [List.append_nil] at behind
    rw [if_neg none, leadingDigits_append wholeDigits (by simp [point])]
    simp [behind]

theorem text_ne_nil (canonical : p.Canonical) : p.text ≠ [] := by
  rw [text]
  simp [canonical.whole_ne_nil]

theorem text_ne_minus_zero (canonical : p.Canonical) : p.text ≠ "-0".toList := by
  intro same
  have read := canonical.read?_text
  rw [same] at read
  obtain rfl : ⟨true, ['0'], []⟩ = p := Option.some.inj read
  exact canonical.sign rfl (by decide +kernel)

/-- No decimal of the same magnitude has fewer digits behind the point. -/
theorem length_decimals_le (canonical : q.Canonical) (same : p.magnitude = q.magnitude) :
    q.decimals.length ≤ p.decimals.length := by
  by_contra longer
  obtain ⟨k, more⟩ := Nat.exists_eq_add_of_lt (not_le.mp longer)
  have notEmpty : q.decimals ≠ [] := by
    intro none
    rw [none] at more
    simp at more
  obtain ⟨front, c, last⟩ := (List.eq_nil_or_concat q.decimals).resolve_left notEmpty
  rw [List.concat_eq_append] at last
  have digit : isDigit c = true := canonical.digits c (by simp [last])
  have small := Numeral.digitValue_lt_ten digit
  have scaled : Numeral.value .decimal (q.whole ++ q.decimals) =
      Numeral.value .decimal (p.whole ++ p.decimals) * 10 ^ (k + 1) := by
    rw [magnitude, magnitude, div_eq_div_iff (by positivity) (by positivity), more, Nat.add_assoc,
      Nat.add_comm, pow_add, ← mul_assoc] at same
    have cancelled := mul_right_cancel₀ (by positivity) same
    exact_mod_cast cancelled.symm
  -- the last digit of the longer one would be a zero
  rw [last, ← List.append_assoc, Numeral.value_concat, Nat.pow_succ, ← Nat.mul_assoc] at scaled
  change _ * 10 + _ = _ at scaled
  have zero : Numeral.digitValue c = 0 := by omega
  have char := Numeral.digitChar_digitValue digit
  rw [zero] at char
  exact canonical.trailing (by rw [last, List.getLast?_concat, ← char]; rfl)

/-- A number has one canonical decimal at most. -/
theorem eq_of_value_eq (left : p.Canonical) (right : q.Canonical) (same : p.value = q.value) :
    p = q := by
  have sign : p.negative = q.negative := by
    rw [Bool.eq_iff_iff, left.negative_iff, right.negative_iff, same]
  have size : p.magnitude = q.magnitude := by
    rw [value, value, sign] at same
    exact signed_injective _ same
  have length : p.decimals.length = q.decimals.length :=
    le_antisymm (left.length_decimals_le size.symm) (right.length_decimals_le size)
  have number : Numeral.value .decimal (p.whole ++ p.decimals) =
      Numeral.value .decimal (q.whole ++ q.decimals) := by
    rw [magnitude, magnitude, length, div_left_inj' (by positivity)] at size
    exact_mod_cast size
  obtain ⟨pWhole, pDecimals⟩ := List.forall_mem_append.mp left.digits
  obtain ⟨qWhole, qDecimals⟩ := List.forall_mem_append.mp right.digits
  have whole : p.whole = q.whole := by
    have front := Numeral.value_append_div pDecimals p.whole
    rw [number, length, Numeral.value_append_div qDecimals] at front
    rw [← Numeral.toDigits_value pWhole left.whole_ne_nil left.leading, ← front]
    exact Numeral.toDigits_value qWhole right.whole_ne_nil right.leading
  have decimals : p.decimals = q.decimals := by
    have back := Numeral.value_append_mod pDecimals p.whole
    rw [number, length, Numeral.value_append_mod qDecimals] at back
    exact Numeral.eq_of_value_eq pDecimals qDecimals length back.symm
  cases p
  cases q
  subst sign whole decimals
  rfl

end Canonical

end Parts

/-- The number that a text writes as a decimal. -/
def readExact? (text : String) : Option ℚ :=
  (Parts.read? text.toList).map Parts.value

theorem Parts.Canonical.readExact?_text {p : Parts} (canonical : p.Canonical) :
    readExact? (String.ofList p.text) = some p.value := by
  rw [readExact?, String.toList_ofList, canonical.read?_text, Option.map_some]

end Decimal

end TreeDiagram
