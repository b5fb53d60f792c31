/-!
Rounding a quotient of natural numbers to the nearest natural number.

A quotient that lies exactly between two numbers goes to the even one.
-/

namespace TreeDiagram.Decimal

/-- The natural number nearest to `num / den`, of two equally near ones the even one. -/
def roundHalfEven (num den : Nat) : Nat :=
  let below := num / den
  let excess := 2 * (num % den)
  if excess < den then below
  else if den < excess then below + 1
  else if below % 2 = 0 then below
  else below + 1

/-- The rounded quotient is at most half a unit above the quotient. -/
theorem roundHalfEven_le (num den : Nat) : 2 * (roundHalfEven num den * den) ≤ 2 * num + den := by
  have parts := Nat.div_add_mod num den
  rw [Nat.mul_comm den] at parts
  unfold roundHalfEven
  dsimp only
  repeat' split
  all_goals try rw [Nat.add_mul]
  all_goals omega

/-- The rounded quotient is at most half a unit below the quotient. -/
theorem le_roundHalfEven (num den : Nat) (h : 0 < den) :
    2 * num ≤ 2 * (roundHalfEven num den * den) + den := by
  have parts := Nat.div_add_mod num den
  have small := Nat.mod_lt num h
  rw [Nat.mul_comm den] at parts
  unfold roundHalfEven
  dsimp only
  repeat' split
  all_goals try rw [Nat.add_mul]
  all_goals omega

end TreeDiagram.Decimal
