import Mathlib.Algebra.Order.Field.Power
import Mathlib.Algebra.Order.Field.Rat
import Mathlib.Algebra.Order.Round
import Mathlib.Algebra.Ring.Int.Parity
import Mathlib.Data.Rat.Floor
import Mathlib.Tactic.Linarith
import Mathlib.Tactic.NormNum
import TreeDiagram.Decimal.Binary
/-!
# Exact values and their rounding

Every finite floating point number is a rational number, a whole number of units with a sign. It is
rounded from this exact value: to the whole number that is nearest, and from the middle between two
to the even one. Rounding is the same on both sides of zero.
-/

namespace TreeDiagram.Decimal

open Float.Model (UnpackedFloat)

/-- A magnitude with a sign. -/
def signed (negative : Bool) (q : ℚ) : ℚ :=
  if negative then -q else q

theorem signed_injective (negative : Bool) : Function.Injective (signed negative) := by
  cases negative with
  | true => exact neg_injective
  | false => exact Function.injective_id

/-- The rational number that an unpacked floating point number stands for. -/
def unpackedValue? : UnpackedFloat → Option ℚ
  | .finite sign mantissa exponent _ => some (sign.apply mantissa * 2 ^ exponent)
  | .zero _ => some 0
  | .infinity _ | .notANumber => none

theorem unpackedValue?_finite (sign : UnpackedFloat.Sign) {mantissa : ℕ} (exponent : ℤ)
    (positive : 0 < mantissa) : unpackedValue? (.finite sign mantissa exponent positive) =
      some ((sign.apply mantissa : ℚ) * 2 ^ exponent) :=
  rfl

/-- The rational number that a floating point number stands for, nothing for the infinite ones and
the undefined one. -/
def exactValue? (x : Float) : Option ℚ :=
  unpackedValue? x.toModel.unpack

theorem isSome_exactValue? (x : Float) : (exactValue? x).isSome = x.isFinite := by
  rw [exactValue?, Float.isFinite, Float.Model.isFinite]
  cases x.toModel.unpack <;> rfl

namespace Binary

/-- The rational number that bits stand for. -/
def value? : Binary → Option ℚ
  | finite negative units scale => some (signed negative (units * 2 ^ scale))
  | infinite _ | undefined => none

section Fields

variable (b : BitVec Float.Model.Format.binary64.numBits)

theorem toNat_unpackMantissa : (UnpackedFloat.unpackMantissa b).toNat = b.toNat % 2 ^ 52 := by
  change (BitVec.extractLsb 51 0 b).toNat = _
  simp

theorem toNat_unpackExponent :
    (UnpackedFloat.unpackExponent b).toNat = b.toNat / 2 ^ 52 % 2 ^ 11 := by
  change (BitVec.extractLsb 62 52 b).toNat = _
  simp [Nat.shiftRight_eq_div_pow]

theorem toNat_unpackSign : (UnpackedFloat.unpackSign b).toNat = b.toNat / 2 ^ 63 % 2 := by
  change (BitVec.extractLsb 63 63 b).toNat = _
  simp [Nat.shiftRight_eq_div_pow]

/-- The sign bit tells whether a magnitude is negated. -/
theorem apply_unpackSign (n : ℕ) (q : ℚ) :
    ((UnpackedFloat.Sign.ofBitVec (UnpackedFloat.unpackSign b)).apply n : ℚ) * q =
      signed (b.toNat / 2 ^ 63 % 2 = 1) (n * q) := by
  have bit := toNat_unpackSign b
  rw [UnpackedFloat.Sign.ofBitVec, signed]
  by_cases one : b.toNat / 2 ^ 63 % 2 = 1
  · have set : UnpackedFloat.unpackSign b ≠ 0#1 := by
      intro zero
      rw [zero, one] at bit
      exact absurd bit (by decide)
    rw [if_neg set, if_pos (decide_eq_true one), UnpackedFloat.Sign.apply, Int.cast_neg, neg_mul,
      Int.cast_natCast]
  · have clear : UnpackedFloat.unpackSign b = 0#1 := by
      apply BitVec.eq_of_toNat_eq
      rw [bit, BitVec.toNat_ofNat]
      omega
    rw [if_pos clear, if_neg (by simpa using one), UnpackedFloat.Sign.apply, Int.cast_natCast]

theorem value?_ofBits : (ofBits b.toNat).value? =
    unpackedValue? (UnpackedFloat.unpack Float.Model.Format.binary64 b) := by
  have exponent := toNat_unpackExponent b
  have fraction := toNat_unpackMantissa b
  have allOnes : UnpackedFloat.unpackExponent b = -1#11 ↔ b.toNat / 2 ^ 52 % 2 ^ 11 = 2047 := by
    rw [← BitVec.toNat_inj, exponent]
    rfl
  have allZeros : UnpackedFloat.unpackExponent b = 0#11 ↔ b.toNat / 2 ^ 52 % 2 ^ 11 = 0 := by
    rw [← BitVec.toNat_inj, exponent]
    rfl
  have empty : UnpackedFloat.unpackMantissa b = 0#52 ↔ b.toNat % 2 ^ 52 = 0 := by
    rw [← BitVec.toNat_inj, fraction]
    rfl
  have leading : (1#1 ++ UnpackedFloat.unpackMantissa b).toNat = 2 ^ 52 + b.toNat % 2 ^ 52 := by
    rw [← fraction, BitVec.toNat_append, ← Nat.shiftLeft_add_eq_or_of_lt (BitVec.isLt _)]
    rfl
  rw [ofBits]
  dsimp only [Nat.pow_eq]
  change _ = unpackedValue? (if UnpackedFloat.unpackExponent b = -1#11 then _ else
    if UnpackedFloat.unpackExponent b = 0#11 then _ else _)
  by_cases ones : UnpackedFloat.unpackExponent b = -1#11
  · rw [if_pos ones, if_pos (allOnes.mp ones)]
    by_cases zero : UnpackedFloat.unpackMantissa b = 0#52
    · rw [if_pos zero, if_pos (empty.mp zero)]
      rfl
    · rw [if_neg zero, if_neg (mt empty.mpr zero)]
      rfl
  · rw [if_neg ones, if_neg (mt allOnes.mpr ones)]
    by_cases smallest : UnpackedFloat.unpackExponent b = 0#11
    · rw [if_pos smallest, if_pos (allZeros.mp smallest)]
      by_cases zero : UnpackedFloat.unpackMantissa b = 0#52
      · rw [dif_pos zero, value?, empty.mp zero, Nat.cast_zero, zero_mul, signed, neg_zero,
          ite_self]
        rfl
      · rw [dif_neg zero, value?, unpackedValue?_finite, apply_unpackSign, fraction, smallest]
        rfl
    · rw [if_neg smallest, if_neg (mt allZeros.mpr smallest), value?,
        unpackedValue?_finite, apply_unpackSign, leading, exponent]
      rfl

end Fields

/-- The bits of a floating point number stand for its value. -/
theorem value?_ofFloat (x : Float) : (ofFloat x).value? = exactValue? x :=
  value?_ofBits x.toBits.toBitVec

theorem ofFloat_of_exactValue? {x : Float} {q : ℚ} (exact : exactValue? x = some q) :
    ∃ negative units scale, ofFloat x = finite negative units scale ∧
      q = signed negative (units * 2 ^ scale) := by
  rw [← value?_ofFloat] at exact
  cases bits : ofFloat x with
  | finite negative units scale =>
    rw [bits, value?] at exact
    exact ⟨negative, units, scale, rfl, (Option.some.inj exact).symm⟩
  | infinite negative =>
    rw [bits] at exact
    cases exact
  | undefined =>
    rw [bits] at exact
    cases exact

end Binary

/-! ## Rounding -/

/-- A whole number that a rational number is rounded to: no whole number is nearer, and if another
is equally near, it is even. -/
structure IsNearestEven (q : ℚ) (n : ℤ) : Prop where
  nearest : ∀ m : ℤ, |q - n| ≤ |q - m|
  even_of_tie : ∀ m : ℤ, m ≠ n → |q - m| = |q - n| → Even n

theorem one_le_abs_sub {m n : ℤ} (differ : m ≠ n) : (1 : ℚ) ≤ |(m : ℚ) - n| := by
  exact_mod_cast Int.one_le_abs (sub_ne_zero.mpr differ)

theorem isNearestEven_iff {q : ℚ} {n : ℤ} :
    IsNearestEven q n ↔ |q - n| ≤ 1 / 2 ∧ (|q - n| = 1 / 2 → Even n) := by
  constructor
  · rintro ⟨nearest, even⟩
    refine ⟨(nearest (round q)).trans (abs_sub_round q), fun tie => ?_⟩
    -- the whole number on the other side of the middle
    rcases (abs_eq (by norm_num)).mp tie with above | below
    · refine even (n + 1) (by omega) ?_
      rw [tie, Int.cast_add, Int.cast_one, ← sub_sub, above]
      norm_num
    · refine even (n - 1) (by omega) ?_
      rw [tie, Int.cast_sub, Int.cast_one, ← sub_add, below]
      norm_num
  · rintro ⟨near, even⟩
    have apart (m : ℤ) (differ : m ≠ n) : 1 ≤ |q - m| + |q - n| := by
      calc (1 : ℚ) ≤ |(m : ℚ) - n| := one_le_abs_sub differ
        _ ≤ |(m : ℚ) - q| + |q - n| := abs_sub_le _ _ _
        _ = |q - m| + |q - n| := by rw [abs_sub_comm (m : ℚ)]
    constructor
    · intro m
      by_cases same : m = n
      · rw [same]
      · linarith [apart m same]
    · intro m differ tie
      exact even (by linarith [apart m differ])

theorem IsNearestEven.unique {q : ℚ} {m n : ℤ} (left : IsNearestEven q m)
    (right : IsNearestEven q n) : m = n := by
  by_contra differ
  have tie : |q - m| = |q - n| := le_antisymm (left.nearest n) (right.nearest m)
  have mEven := left.even_of_tie n (Ne.symm differ) tie.symm
  have nEven := right.even_of_tie m differ tie
  -- two different even numbers are too far apart to be both nearest
  have close : |(m : ℚ) - n| ≤ 1 := by
    calc |(m : ℚ) - n| ≤ |(m : ℚ) - q| + |q - n| := abs_sub_le _ _ _
      _ = |q - m| + |q - n| := by rw [abs_sub_comm (m : ℚ)]
      _ ≤ 1 := by linarith [(isNearestEven_iff.mp left).1, (isNearestEven_iff.mp right).1]
  have close' : |m - n| ≤ 1 := by exact_mod_cast close
  rw [abs_le] at close'
  rw [Int.even_iff] at mEven nEven
  omega

theorem IsNearestEven.neg {q : ℚ} {n : ℤ} (nearest : IsNearestEven q n) :
    IsNearestEven (-q) (-n) := by
  rw [isNearestEven_iff] at nearest ⊢
  rwa [Int.cast_neg, neg_sub_neg, abs_sub_comm, even_neg]

/-- A quotient in the middle between two whole numbers is rounded to an even one. -/
theorem even_roundHalfEven {num den : ℕ} (positive : 0 < den)
    (tie : 2 * num = 2 * (roundHalfEven num den * den) + den ∨
      2 * num + den = 2 * (roundHalfEven num den * den)) : Even (roundHalfEven num den) := by
  have parts := Nat.div_add_mod num den
  have small := Nat.mod_lt num positive
  rw [Nat.mul_comm den] at parts
  unfold roundHalfEven at tie ⊢
  dsimp only at tie ⊢
  rw [Nat.even_iff]
  split_ifs at tie ⊢ with less more even
  · omega
  · rw [Nat.add_mul] at tie
    omega
  · exact even
  · omega

theorem isNearestEven_roundHalfEven (num : ℕ) {den : ℕ} (positive : 0 < den) :
    IsNearestEven (num / den : ℚ) (roundHalfEven num den) := by
  have above : (2 * (roundHalfEven num den * den) : ℚ) ≤ 2 * num + den := by
    exact_mod_cast roundHalfEven_le num den
  have below : (2 * num : ℚ) ≤ 2 * (roundHalfEven num den * den) + den := by
    exact_mod_cast le_roundHalfEven num den positive
  have den_pos : (0 : ℚ) < den := Nat.cast_pos.mpr positive
  have gap : |(num / den : ℚ) - (roundHalfEven num den : ℤ)| =
      |(num : ℚ) - roundHalfEven num den * den| / den := by
    rw [Int.cast_natCast, div_sub' den_pos.ne', abs_div, abs_of_pos den_pos, mul_comm (den : ℚ)]
  rw [isNearestEven_iff, gap, div_le_iff₀ den_pos, div_eq_iff den_pos.ne', abs_le,
    abs_eq (by linarith), Int.even_coe_nat]
  refine ⟨⟨by linarith, by linarith⟩, fun tie => even_roundHalfEven positive ?_⟩
  rcases tie with high | low
  · left
    have exact : (2 * num : ℚ) = 2 * (roundHalfEven num den * den) + den := by linarith
    exact_mod_cast exact
  · right
    have exact : (2 * num + den : ℚ) = 2 * (roundHalfEven num den * den) := by linarith
    exact_mod_cast exact

namespace Binary

theorem ratio_eq (units : ℕ) (scale : ℤ) : 0 < (ratio units scale).2 ∧
    ((ratio units scale).1 / (ratio units scale).2 : ℚ) = units * 2 ^ scale := by
  unfold ratio
  split
  · next whole =>
    obtain ⟨k, rfl⟩ := Int.eq_ofNat_of_zero_le whole
    refine ⟨Nat.one_pos, ?_⟩
    rw [Int.toNat_natCast, Nat.pow_eq, Nat.cast_one, div_one]
    push_cast
    rw [zpow_natCast]
  · next fraction =>
    obtain ⟨k, same⟩ := Int.eq_ofNat_of_zero_le (show 0 ≤ -scale by omega)
    obtain rfl : scale = -k := by omega
    rw [neg_neg, Int.toNat_natCast, Nat.pow_eq]
    refine ⟨Nat.two_pow_pos k, ?_⟩
    rw [Nat.cast_pow, Nat.cast_ofNat, zpow_neg, zpow_natCast, div_eq_mul_inv]

/-- A magnitude in units of a decimal place is the exact one, rounded. -/
theorem isNearestEven_scaled (places units : ℕ) (scale : ℤ) :
    IsNearestEven (10 ^ places * (units * 2 ^ scale)) (scaled places units scale) := by
  obtain ⟨positive, exact⟩ := ratio_eq units scale
  have rounded :=
    isNearestEven_roundHalfEven ((ratio units scale).1 * 10 ^ places) positive
  rwa [Nat.cast_mul, Nat.cast_pow, Nat.cast_ofNat, mul_div_right_comm, exact, mul_comm] at rounded

end Binary

end TreeDiagram.Decimal
