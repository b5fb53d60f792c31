import TreeDiagram.Text.Letter
import TreeDiagram.Text.Span
/-!
# Classes of characters

Letters and digits are no blanks, and all of these are characters of one byte.
-/

namespace TreeDiagram

theorem isBlank_of_isAlphanumeric {c : Char} (letter : isAlphanumeric c = true) :
    isBlank c = false := by
  simp only [isAlphanumeric, isDigit, Bool.or_eq_true, Bool.and_eq_true, decide_eq_true_eq,
    Char.le_def, UInt32.le_iff_toNat_le] at letter
  simp only [isBlank, decide_eq_false_iff_not, Char.le_def, UInt32.le_iff_toNat_le, Nat.not_le]
  have space : ' '.val.toNat = 32 := rfl
  have zero : '0'.val.toNat = 48 := rfl
  have lower : 'a'.val.toNat = 97 := rfl
  have upper : 'A'.val.toNat = 65 := rfl
  omega

theorem isAlphanumeric_of_isDigit {c : Char} (digit : isDigit c = true) :
    isAlphanumeric c = true := by
  simp [isAlphanumeric, digit]

theorem isHexDigit_of_isDigit {c : Char} (digit : isDigit c = true) : isHexDigit c = true := by
  simp [isHexDigit, digit]

theorem utf8Size_of_le {c : Char} (ascii : c ≤ '~') : c.utf8Size = 1 := by
  rw [Char.le_def, UInt32.le_iff_toNat_le] at ascii
  rw [Char.utf8Size_eq_one_iff, UInt32.le_iff_toNat_le]
  have tilde : '~'.val.toNat = 126 := rfl
  have last : (127 : UInt32).toNat = 127 := rfl
  omega

theorem utf8Size_of_isBlank {c : Char} (blank : isBlank c = true) : c.utf8Size = 1 := by
  apply utf8Size_of_le
  have space : ' ' ≤ '~' := by decide
  exact Char.le_trans (of_decide_eq_true blank) space

theorem utf8Size_of_isAlphanumeric {c : Char} (letter : isAlphanumeric c = true) :
    c.utf8Size = 1 := by
  apply utf8Size_of_le
  simp only [isAlphanumeric, isDigit, Bool.or_eq_true, Bool.and_eq_true,
    decide_eq_true_eq] at letter
  have nine : '9' ≤ '~' := by decide
  have lower : 'z' ≤ '~' := by decide
  have upper : 'Z' ≤ '~' := by decide
  rcases letter with (⟨-, digit⟩ | ⟨-, small⟩) | ⟨-, capital⟩
  · exact Char.le_trans digit nine
  · exact Char.le_trans small lower
  · exact Char.le_trans capital upper

theorem utf8Size_of_isHexDigit {c : Char} (digit : isHexDigit c = true) : c.utf8Size = 1 := by
  apply utf8Size_of_le
  simp only [isHexDigit, isHexLetter, isDigit, Bool.or_eq_true, Bool.and_eq_true,
    decide_eq_true_eq] at digit
  have nine : '9' ≤ '~' := by decide
  have lower : 'f' ≤ '~' := by decide
  have upper : 'F' ≤ '~' := by decide
  rcases digit with ⟨-, decimal⟩ | ⟨-, small⟩ | ⟨-, capital⟩
  · exact Char.le_trans decimal nine
  · exact Char.le_trans small lower
  · exact Char.le_trans capital upper

/-- Characters of one byte each take as many bytes as there are of them. -/
theorem byteLength_eq_length {cs : List Char} (one : ∀ c ∈ cs, c.utf8Size = 1) :
    byteLength cs = cs.length := by
  induction cs with
  | nil => rfl
  | cons c cs ih =>
    have first := one c List.mem_cons_self
    have others := ih fun d member => one d (List.mem_cons_of_mem _ member)
    rw [byteLength_cons, List.length_cons, first, others, Nat.add_comm]

theorem byteLength_of_hexDigits {cs : List Char} (digits : ∀ c ∈ cs, isHexDigit c = true) :
    byteLength cs = cs.length :=
  byteLength_eq_length fun c member => utf8Size_of_isHexDigit (digits c member)

end TreeDiagram
