import Mathlib.Algebra.Order.Field.Rat
import Mathlib.Order.Bounds.Basic
import Mathlib.Tactic.Linarith
import Mathlib.Tactic.NormNum
import TreeDiagram.Scalar
/-!
# Coordinates without rounding

Over the rationals the larger and the smaller of two numbers are their maximum and minimum, and the
literals of the layout are the numbers they stand for. The extremes of a row of numbers are then
its greatest and its least element.
-/

namespace TreeDiagram

namespace Scalar

@[simp] theorem zero_literal : (0.0 : Rat) = 0 := by norm_num

@[simp] theorem two_literal : (2.0 : Rat) = 2 := by norm_num

@[simp] theorem larger_eq_max (a b : Rat) : larger a b = max a b := by
  unfold larger
  split
  · next less => exact (max_eq_right less.le).symm
  · next notLess => rw [if_pos (le_refl a), max_eq_left (not_lt.mp notLess)]

@[simp] theorem smaller_eq_min (a b : Rat) : smaller a b = min a b := by
  unfold smaller
  split
  · next less => exact (min_eq_right less.le).symm
  · next notLess => rw [if_pos (le_refl a), min_eq_left (not_lt.mp notLess)]

/-- A walk through a row that keeps one of two numbers at each step, always one that bounds the
other, ends with a number it has met and that bounds all it has met. -/
theorem foldl_keeps {α : Type} {R : Rat → Rat → Prop} {keep : Rat → Rat → Rat}
    (refl : ∀ a, R a a) (trans : ∀ {a b c}, R a b → R b c → R a c)
    (kept : ∀ a b, keep a b = a ∨ keep a b = b)
    (left : ∀ a b, R (keep a b) a) (right : ∀ a b, R (keep a b) b)
    (f : α → Rat) (row : List α) (start : Rat) :
    row.foldl (fun m a => keep m (f a)) start ∈ insert start {x | ∃ a ∈ row, f a = x} ∧
      ∀ x ∈ insert start {x | ∃ a ∈ row, f a = x},
        R (row.foldl (fun m a => keep m (f a)) start) x := by
  induction row generalizing start with
  | nil => simpa using refl start
  | cons a row ih =>
    obtain ⟨met, all⟩ := ih (keep start (f a))
    rw [List.foldl_cons]
    refine ⟨?_, ?_⟩
    · rcases met with here | ⟨b, member, value⟩
      · rw [here]
        rcases kept start (f a) with same | same
        · exact .inl same
        · exact .inr ⟨a, by simp, same.symm⟩
      · exact .inr ⟨b, by simp [member], value⟩
    · have first := all _ (Set.mem_insert _ _)
      rintro x (rfl | ⟨b, member, rfl⟩)
      · exact trans first (left _ _)
      · rcases List.mem_cons.mp member with rfl | member
        · exact trans first (right _ _)
        · exact all _ (.inr ⟨b, member, rfl⟩)

theorem isGreatest_foldl_larger {α : Type} (f : α → Rat) (row : List α) (start : Rat) :
    IsGreatest (insert start {x | ∃ a ∈ row, f a = x})
      (row.foldl (fun m a => larger m (f a)) start) := by
  simp only [larger_eq_max]
  exact foldl_keeps (R := fun a b => b ≤ a) le_refl (fun ab bc => bc.trans ab)
    max_choice le_max_left le_max_right f row start

theorem isLeast_foldl_smaller {α : Type} (f : α → Rat) (row : List α) (start : Rat) :
    IsLeast (insert start {x | ∃ a ∈ row, f a = x})
      (row.foldl (fun m a => smaller m (f a)) start) := by
  simp only [smaller_eq_min]
  exact foldl_keeps (R := fun a b => a ≤ b) le_refl le_trans
    min_choice min_le_left min_le_right f row start

private theorem row_eq_insert (x : Rat) (xs : List Rat) :
    {y | y ∈ x :: xs} = insert x {y | ∃ z ∈ xs, id z = y} := by
  ext y
  simp

theorem isGreatest_largest? {row : List Rat} {m : Rat} (found : largest? row = some m) :
    IsGreatest {x | x ∈ row} m := by
  cases row with
  | nil => simp [largest?] at found
  | cons x xs =>
    rw [row_eq_insert, ← Option.some.inj found]
    exact isGreatest_foldl_larger id xs x

theorem isLeast_smallest? {row : List Rat} {m : Rat} (found : smallest? row = some m) :
    IsLeast {x | x ∈ row} m := by
  cases row with
  | nil => simp [smallest?] at found
  | cons x xs =>
    rw [row_eq_insert, ← Option.some.inj found]
    exact isLeast_foldl_smaller id xs x

@[simp] theorem largest?_eq_none {K : Type} [Scalar K] {row : List K} :
    largest? row = none ↔ row = [] := by
  cases row <;> simp [largest?]

@[simp] theorem smallest?_eq_none {K : Type} [Scalar K] {row : List K} :
    smallest? row = none ↔ row = [] := by
  cases row <;> simp [smallest?]

end Scalar

end TreeDiagram
