import Mathlib.Data.List.Basic
import Mathlib.Data.List.Induction
import Mathlib.Data.Nat.Digits.Defs
import TreeDiagram.Text.Numeral
/-!
# What numerals denote

A numeral denotes the number that its digits have in their radix, whatever its length.
-/

namespace TreeDiagram

namespace Numeral

/-- A text is a numeral for a number: in decimal digits, or in hexadecimal digits behind a mark. -/
inductive Denotes : List Char → Nat → Prop
  | decimal {digits : List Char} (notEmpty : digits ≠ []) (all : ∀ c ∈ digits, isDigit c) :
      Denotes digits (Nat.ofDigits 10 (digits.reverse.map digitValue))
  | hexadecimal {mark : Char} {digits : List Char} (marked : mark = 'x' ∨ mark = 'X')
      (notEmpty : digits ≠ []) (all : ∀ c ∈ digits, isHexDigit c) :
      Denotes ('0' :: mark :: digits) (Nat.ofDigits 16 (digits.reverse.map digitValue))

theorem value_eq_ofDigits (radix : Radix) (digits : List Char) :
    value radix digits = Nat.ofDigits radix.base (digits.reverse.map digitValue) := by
  induction digits using List.reverseRecOn with
  | nil => rfl
  | append_singleton digits c ih =>
    rw [List.reverse_concat, List.map_cons, Nat.ofDigits_cons, ← ih]
    rw [value, List.foldl_append, ← value, Nat.add_comm, Nat.mul_comm]
    rfl

theorem ofDigits?_eq_some_iff {radix : Radix} {cs : List Char} {n : Nat} :
    ofDigits? radix cs = some n ↔ cs ≠ [] ∧ (∀ c ∈ cs, radix.isDigit c) ∧
      Nat.ofDigits radix.base (cs.reverse.map digitValue) = n := by
  rw [ofDigits?, ← value_eq_ofDigits]
  simp [and_assoc]

theorem afterMark?_eq_some_iff {cs digits : List Char} :
    afterMark? cs = some digits ↔
      ∃ mark, (mark = 'x' ∨ mark = 'X') ∧ cs = '0' :: mark :: digits := by
  unfold afterMark?
  split <;> simp_all

/-- A text is read as the number that it denotes. -/
theorem read?_eq_some_iff {cs : List Char} {n : Nat} : read? cs = some n ↔ Denotes cs n := by
  constructor
  · intro found
    unfold read? at found
    split at found
    · next digits marked =>
      obtain ⟨mark, isMark, rfl⟩ := afterMark?_eq_some_iff.mp marked
      obtain ⟨notEmpty, all, rfl⟩ := ofDigits?_eq_some_iff.mp found
      exact .hexadecimal isMark notEmpty all
    · obtain ⟨notEmpty, all, rfl⟩ := ofDigits?_eq_some_iff.mp found
      exact .decimal notEmpty all
  · intro denotes
    cases denotes with
    | decimal notEmpty all =>
      have unmarked : afterMark? cs = none := by
        cases marked : afterMark? cs with
        | none => rfl
        | some digits =>
          obtain ⟨mark, isMark, rfl⟩ := afterMark?_eq_some_iff.mp marked
          have isDigit := all mark (by simp)
          rcases isMark with rfl | rfl <;> exact absurd isDigit (by decide)
      rw [read?, unmarked]
      exact ofDigits?_eq_some_iff.mpr ⟨notEmpty, all, rfl⟩
    | @hexadecimal mark digits marked notEmpty all =>
      rw [read?, afterMark?_eq_some_iff.mpr ⟨mark, marked, rfl⟩]
      exact ofDigits?_eq_some_iff.mpr ⟨notEmpty, all, rfl⟩

/-! ## Numbers in decimal -/

theorem toList_toString (n : Nat) : (toString n).toList = Nat.toDigits 10 n := by
  rw [Nat.toString_eq_ofList_toDigits, String.toList_ofList]

theorem toString_ne_nil (n : Nat) : (toString n).toList ≠ [] := by
  rw [toList_toString]
  exact Nat.toDigits_ne_nil

theorem isDigit_of_mem_toString {n : Nat} {c : Char} (member : c ∈ (toString n).toList) :
    isDigit c = true := by
  rw [toList_toString] at member
  have digit := Nat.isDigit_of_mem_toDigits (by decide) (by decide) member
  rw [Char.isDigit_iff_toNat] at digit
  rw [isDigit, Bool.and_eq_true, decide_eq_true_eq, decide_eq_true_eq]
  exact digit

end Numeral

end TreeDiagram
