import TreeDiagram.Decimal.Shortest
import TreeDiagram.Drawing.Coordinate
import TreeDiagram.Proofs.Decimal.Canonical
/-!
# How coordinates are written

A finite coordinate is rounded to a number of hundredths, and what is written is the canonical
decimal of this number. So nothing is lost but by rounding, and two coordinates look alike only if
they are rounded alike. The same text comes about when all places are written and the zeros at the
end are taken off again.
-/

namespace TreeDiagram

open Decimal

/-! ## Numbers of hundredths -/

/-- What is true of all pairs of digits is true of the numbers below a hundred. -/
theorem forall_lt_hundred {P : Nat → Prop} (each : ∀ a < 10, ∀ b < 10, P (10 * a + b)) (r : Nat)
    (small : r < 100) : P r := by
  rw [← Nat.div_add_mod r 10]
  exact each (r / 10) (by omega) (r % 10) (Nat.mod_lt r (by decide))

/-- The digits behind the point for what is left of a number of hundredths. -/
def fractionDigits (r : Nat) : List Char :=
  if r = 0 then [] else if r % 10 = 0 then Nat.toDigits 10 (r / 10) else padded 2 r

theorem fractionDigits_spec : ∀ r < 100,
    (fractionDigits r).all isDigit = true ∧ (fractionDigits r).getLast? ≠ some '0' ∧
      (fractionDigits r).length ≤ 2 ∧
      Numeral.value .decimal (fractionDigits r) * 10 ^ (2 - (fractionDigits r).length) = r ∧
      (fractionDigits r = [] ↔ r = 0) :=
  forall_lt_hundred (by decide +kernel)

/-- The decimal of a number of hundredths. -/
def hundredthsParts (n : ℤ) : Parts where
  negative := n < 0
  whole := Nat.toDigits 10 (n.natAbs / 100)
  decimals := fractionDigits (n.natAbs % 100)

theorem magnitude_hundredthsParts (n : ℤ) : (hundredthsParts n).magnitude = n.natAbs / 100 := by
  obtain ⟨-, -, short, exact, -⟩ := fractionDigits_spec _ (Nat.mod_lt n.natAbs (by decide))
  have whole : Numeral.value .decimal (Nat.toDigits 10 (n.natAbs / 100)) = n.natAbs / 100 :=
    (Numeral.digits_toDigits _).2
  have places : 10 ^ (2 - (fractionDigits (n.natAbs % 100)).length) *
      10 ^ (fractionDigits (n.natAbs % 100)).length = 100 := by
    rw [← Nat.pow_add, Nat.sub_add_cancel short]
  have shift {w v r a b : ℕ} (exact : v * b = r) (places : b * a = 100) :
      (w * a + v) * 100 = (w * 100 + r) * a := by
    rw [← exact, ← places]
    ring
  have all : Numeral.value .decimal (Nat.toDigits 10 (n.natAbs / 100) ++
      fractionDigits (n.natAbs % 100)) * 100 =
        n.natAbs * 10 ^ (fractionDigits (n.natAbs % 100)).length := by
    rw [Numeral.value_append, whole, shift exact places, Nat.div_add_mod']
  rw [Parts.magnitude, div_eq_div_iff (by positivity) (by norm_num)]
  exact_mod_cast all

theorem value_hundredthsParts (n : ℤ) : (hundredthsParts n).value = n / 100 := by
  have size : (n.natAbs : ℚ) = |(n : ℚ)| := by rw [Nat.cast_natAbs, Int.cast_abs]
  rw [Parts.value, magnitude_hundredthsParts, size, hundredthsParts, signed]
  split
  · next below =>
    have below' : (n : ℚ) < 0 := Int.cast_lt_zero.mpr (of_decide_eq_true below)
    rw [abs_of_neg below', neg_div, neg_neg]
  · next above =>
    have above' : (0 : ℚ) ≤ n := by exact_mod_cast not_lt.mp (by simpa using above)
    rw [abs_of_nonneg above']

theorem canonical_hundredthsParts (n : ℤ) : (hundredthsParts n).Canonical := by
  obtain ⟨digits, trailing, -⟩ := fractionDigits_spec _ (Nat.mod_lt n.natAbs (by decide))
  constructor
  · exact List.forall_mem_append.mpr ⟨(Numeral.digits_toDigits _).1, List.all_eq_true.mp digits⟩
  · exact Nat.toDigits_ne_nil
  · intro zero
    rcases Nat.eq_zero_or_pos (n.natAbs / 100) with none | some
    · rw [hundredthsParts, none]
      rfl
    · exact absurd zero (Numeral.head?_toDigits some)
  · exact trailing
  · intro negative zero
    have below : n < 0 := of_decide_eq_true negative
    rw [value_hundredthsParts, div_eq_iff (by norm_num), zero_mul, Int.cast_eq_zero] at zero
    omega

theorem hundredthsParts_signed (negative : Bool) (n : Nat) :
    hundredthsParts (if negative then -n else n) =
      ⟨negative && n != 0, Nat.toDigits 10 (n / 100), fractionDigits (n % 100)⟩ := by
  have size : (if negative then -n else n : ℤ).natAbs = n := by
    split <;> simp
  have sign : decide ((if negative then -n else n : ℤ) < 0) = (negative && n != 0) := by
    rw [Bool.eq_iff_iff]
    cases negative <;> simp
    omega
  rw [hundredthsParts, size, sign]

/-- What is written for a number of hundredths is its decimal. -/
theorem hundredthsText_eq (negative : Bool) (n : Nat) : hundredthsText negative n =
    String.ofList (hundredthsParts (if negative then -n else n)).text := by
  have ones : n % 100 % 10 = n % 10 := Nat.mod_mod_of_dvd n (by decide)
  obtain ⟨-, -, -, -, none⟩ := fractionDigits_spec _ (Nat.mod_lt n (by decide))
  rw [hundredthsText, hundredthsParts_signed, Parts.text]
  simp only [none, String.ofList_append, String.ofList_toList, String.append_assoc]
  simp only [fractionDigits, ones]
  split_ifs <;> rfl

/-- A text is the canonical decimal of a number of hundredths, with all digits in front of the
point and as many as needed behind it. -/
structure WritesHundredths (text : String) (n : ℤ) : Prop where
  parts : ∃ p : Parts, text = String.ofList p.text ∧ p.Canonical ∧ p.value = n / 100 ∧
    (p.negative = true ↔ n < 0) ∧ p.whole = Nat.toDigits 10 (n.natAbs / 100) ∧
    p.decimals.length ≤ 2
  only : ∀ p : Parts, p.Canonical → p.value = n / 100 → text = String.ofList p.text
  exact : readExact? text = some (n / 100 : ℚ)
  ne_minus_zero : text ≠ "-0"
  ne_empty : text ≠ ""

theorem writesHundredths_parts (n : ℤ) :
    WritesHundredths (String.ofList (hundredthsParts n).text) n := by
  have canonical := canonical_hundredthsParts n
  have value := value_hundredthsParts n
  obtain ⟨-, -, short, -⟩ := fractionDigits_spec _ (Nat.mod_lt n.natAbs (by decide))
  constructor
  · exact ⟨_, rfl, canonical, value, decide_eq_true_iff, rfl, short⟩
  · intro p other same
    rw [canonical.eq_of_value_eq other (value.trans same.symm)]
  · rw [canonical.readExact?_text, value]
  · intro same
    exact canonical.text_ne_minus_zero (by rw [← same, String.toList_ofList])
  · intro same
    exact canonical.text_ne_nil (String.ofList_eq_empty_iff.mp same)

/-- A text is the canonical decimal of one number of hundredths only. -/
theorem WritesHundredths.number_eq {text : String} {m n : ℤ} (left : WritesHundredths text m)
    (right : WritesHundredths text n) : m = n := by
  have same := left.exact.symm.trans right.exact
  rw [Option.some.injEq, div_left_inj' (by norm_num)] at same
  exact_mod_cast same

/-! ## Coordinates -/

/-- What is written for a number depends on the nearest number of hundredths. -/
theorem exists_hundredths {x : Float} {q : ℚ} (exact : exactValue? x = some q) :
    ∃ n : ℤ, IsNearestEven (100 * q) n ∧
      coordinateText x = String.ofList (hundredthsParts n).text := by
  obtain ⟨negative, units, scale, bits, rfl⟩ := Binary.ofFloat_of_exactValue? exact
  have rounded := Binary.isNearestEven_scaled 2 units scale
  refine ⟨if negative then -(Binary.scaled 2 units scale) else Binary.scaled 2 units scale, ?_, ?_⟩
  · have hundred : (100 : ℚ) = 10 ^ 2 := by norm_num
    cases negative with
    | true =>
      rw [signed, if_pos rfl, if_pos rfl, hundred, mul_neg]
      exact rounded.neg
    | false =>
      rw [hundred]
      exact rounded
  · rw [coordinateText, bits]
    exact hundredthsText_eq _ _

example : coordinateText 0.125 = "0.12" ∧ coordinateText (-0.001) = "0" := by decide +kernel

/-! ## Trimming -/

/-- What is left of a text without the zeros and the point at its end, and zero without a sign. -/
def trimmedText (text : String) : String :=
  let cs := trimRight '.' (trimRight '0' text.toList)
  if cs = "-0".toList ∨ cs = [] then "0" else String.ofList cs

theorem Decimal.trimRight_append (c : Char) (front back : List Char) :
    trimRight c (front ++ back) =
      if trimRight c back = [] then trimRight c front else front ++ trimRight c back := by
  unfold trimRight
  rw [List.reverse_append, List.dropWhile_append]
  simp only [List.reverse_eq_nil_iff, List.isEmpty_iff]
  split
  · rfl
  · rw [List.reverse_append, List.reverse_reverse]

theorem Decimal.trimRight_of_forall_ne {c : Char} {cs : List Char} (other : ∀ d ∈ cs, d ≠ c) :
    trimRight c cs = cs := by
  have keep : cs.reverse.dropWhile (· == c) = cs.reverse := by
    cases reversed : cs.reverse with
    | nil => rfl
    | cons d ds =>
      have last := other d (List.mem_reverse.mp (by simp [reversed]))
      exact List.dropWhile_cons_of_neg (by simpa using last)
  rw [trimRight, keep, List.reverse_reverse]

theorem Decimal.padded_three (n : Nat) : padded 3 n = Nat.toDigits 10 (n / 100) ++
    [Nat.digitChar (n % 100 / 10), Nat.digitChar (n % 100 % 10)] := by
  by_cases small : n < 100
  · have each : ∀ n < 100, padded 3 n = Nat.toDigits 10 (n / 100) ++
        [Nat.digitChar (n % 100 / 10), Nat.digitChar (n % 100 % 10)] :=
      forall_lt_hundred (by decide +kernel)
    exact each n small
  · -- from here on there are three digits without filling up
    have front : 0 < (Nat.toDigits 10 (n / 100)).length :=
      List.length_pos_of_ne_nil Nat.toDigits_ne_nil
    have tens : n / 10 % 10 = n % 100 / 10 := by omega
    have ones : n % 10 = n % 100 % 10 := by omega
    have digits : Nat.toDigits 10 n = Nat.toDigits 10 (n / 100) ++
        [Nat.digitChar (n % 100 / 10), Nat.digitChar (n % 100 % 10)] := by
      rw [Nat.toDigits_eq_if (by decide), if_neg (by omega), Nat.toDigits_eq_if (by decide),
        if_neg (by omega), tens, ones, Nat.div_div_eq_div_mul, List.append_assoc]
      rfl
    have full : 3 - ((Nat.toDigits 10 (n / 100)).length + 2) = 0 := by omega
    rw [padded, digits, List.length_append]
    change List.replicate (3 - ((Nat.toDigits 10 (n / 100)).length + 2)) '0' ++ _ = _
    rw [full]
    rfl

/-- With two places, the point stands in front of the last two digits. -/
theorem Decimal.placed_two (n : Nat) : placed 2 n = Nat.toDigits 10 (n / 100) ++
    ['.', Nat.digitChar (n % 100 / 10), Nat.digitChar (n % 100 % 10)] := by
  rw [placed, padded_three]
  simp

/-- The zeros at the end of two places are taken off, but none in front of the point. -/
theorem trimRight_places : ∀ r < 100,
    trimRight '0' ['.', Nat.digitChar (r / 10), Nat.digitChar (r % 10)] = '.' :: fractionDigits r ∧
      trimRight '.' ('.' :: fractionDigits r) =
        if fractionDigits r = [] then [] else '.' :: fractionDigits r :=
  forall_lt_hundred (by decide +kernel)

theorem trimRight_placed (negative : Bool) (n : Nat) :
    trimRight '.' (trimRight '0' ((signText negative).toList ++ placed 2 n)) =
      Parts.text ⟨negative, Nat.toDigits 10 (n / 100), fractionDigits (n % 100)⟩ := by
  obtain ⟨zeros, point⟩ := trimRight_places _ (Nat.mod_lt n (by decide))
  have front : ∀ c ∈ (signText negative).toList ++ Nat.toDigits 10 (n / 100), c ≠ '.' := by
    rintro c member rfl
    rcases List.mem_append.mp member with sign | digit
    · cases negative with
      | true => exact absurd sign (by decide)
      | false => exact absurd sign (by decide)
    · exact absurd ((Numeral.digits_toDigits _).1 _ digit) (by decide)
  rw [placed_two, ← List.append_assoc, trimRight_append, zeros, if_neg (List.cons_ne_nil _ _),
    trimRight_append, point, trimRight_of_forall_ne front, Parts.text]
  by_cases whole : fractionDigits (n % 100) = []
  · rw [if_pos whole, if_pos rfl, List.append_nil]
  · rw [if_neg whole, if_neg (List.cons_ne_nil _ _)]

theorem trimmedText_placed (negative : Bool) (n : Nat) :
    trimmedText (signText negative ++ String.ofList (placed 2 n)) = hundredthsText negative n := by
  rw [trimmedText, String.toList_append, String.toList_ofList, trimRight_placed]
  by_cases zero : n = 0
  · subst zero
    cases negative with
    | true => decide
    | false => decide
  · have parts := hundredthsParts_signed negative n
    rw [bne_iff_ne.mpr zero, Bool.and_true] at parts
    have canonical := canonical_hundredthsParts (if negative then -n else n)
    rw [hundredthsText_eq, ← parts, if_neg]
    rintro (marked | none)
    · exact canonical.text_ne_minus_zero marked
    · exact canonical.text_ne_nil none

/-- A coordinate is written as with two places and then trimmed. -/
theorem coordinateText_eq_trimmedText (x : Float) :
    coordinateText x = trimmedText (fixed 2 x) := by
  rw [coordinateText, fixed]
  cases Binary.ofFloat x with
  | finite negative units scale => exact (trimmedText_placed _ _).symm
  | infinite negative => cases negative <;> decide
  | undefined => decide

/-- A finite coordinate is written as the canonical decimal of the nearest number of hundredths, of
two equally near ones the even one. So coordinates look alike if this number is the same. -/
theorem coordinateText_nearest_hundredth {x : Float} (finite : x.isFinite = true) :
    ∃ (q : ℚ) (n : ℤ), exactValue? x = some q ∧ IsNearestEven (100 * q) n ∧
      WritesHundredths (coordinateText x) n ∧ coordinateText x = trimmedText (fixed 2 x) ∧
      ∀ (y : Float) (r : ℚ), exactValue? y = some r →
        (coordinateText y = coordinateText x ↔ IsNearestEven (100 * r) n) := by
  rw [← isSome_exactValue?] at finite
  obtain ⟨q, exact⟩ := Option.isSome_iff_exists.mp finite
  obtain ⟨n, nearest, written⟩ := exists_hundredths exact
  have writes := writesHundredths_parts n
  refine ⟨q, n, exact, nearest, written ▸ writes, coordinateText_eq_trimmedText x, ?_⟩
  intro y r exact'
  obtain ⟨m, nearest', written'⟩ := exists_hundredths exact'
  rw [written, written']
  constructor
  · intro same
    have writes' := writesHundredths_parts m
    rw [same] at writes'
    rwa [← writes'.number_eq writes]
  · intro nearest''
    rw [nearest'.unique nearest'']

theorem coordinateText_nearest_hundredth_above : (23.186 : Float).isFinite = true ∧
    coordinateText 23.186 = "23.19" ∧ ∀ (y : Float) (r : ℚ), exactValue? y = some r →
      (coordinateText y = "23.19" ↔ IsNearestEven (100 * r) 2319) := by
  have finite : (23.186 : Float).isFinite = true := by decide +kernel
  have text : coordinateText 23.186 = "23.19" := by decide +kernel
  obtain ⟨q, n, -, -, writes, -, alike⟩ := coordinateText_nearest_hundredth finite
  rw [text] at writes alike
  have known : String.ofList (hundredthsParts 2319).text = "23.19" := by decide +kernel
  obtain rfl := writes.number_eq (known ▸ writesHundredths_parts 2319)
  exact ⟨finite, text, alike⟩

end TreeDiagram
