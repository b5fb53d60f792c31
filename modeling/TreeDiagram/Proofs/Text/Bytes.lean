import Mathlib.Data.String.Basic
import TreeDiagram.Text.Bytes
import TreeDiagram.Text.Letter
/-!
# The order of bytes

Texts are ordered character by character. Their encodings are ordered byte by byte, and this is the
same order: the encoding of a greater character is greater at the first byte that differs, whatever
stands behind it. Each byte of a text is one of a character that stands there.
-/

namespace TreeDiagram

theorem bytes_eq (text : String) : bytes text = text.toList.flatMap String.utf8EncodeChar := by
  conv_lhs => rw [← String.ofList_toList (s := text)]
  rw [bytes, String.toUTF8_eq_toByteArray, String.toByteArray_ofList, List.utf8Encode,
    List.toList_data_toByteArray]

theorem toNat_val_lt (c : Char) : c.val.toNat < 0x110000 := by
  rcases c.valid with low | ⟨-, high⟩
  · exact Nat.lt_trans low (by decide)
  · exact high

theorem utf8EncodeChar_append_lt {c d : Char} (less : c < d) (s t : List UInt8) :
    String.utf8EncodeChar c ++ s < String.utf8EncodeChar d ++ t := by
  have order : c.val.toNat < d.val.toNat := less
  have bound := toNat_val_lt d
  have byte {n : Nat} (small : n < 256) : (UInt8.ofNat n).toNat = n :=
    UInt8.toNat_ofNat_of_lt' small
  -- every digit as one of the number in front of it, which is how the bytes are compared
  have second (n : Nat) : n / 4096 = n / 64 / 64 := (Nat.div_div_eq_div_mul n 64 64).symm
  have third (n : Nat) : n / 262144 = n / 64 / 64 / 64 := by
    rw [Nat.div_div_eq_div_mul, Nat.div_div_eq_div_mul]
  rw [String.utf8EncodeChar.eq_def, String.utf8EncodeChar.eq_def]
  generalize c.val.toNat = v at *
  generalize d.val.toNat = w at *
  simp only [second, third]
  -- a longer encoding begins with a greater byte
  split_ifs <;> simp (disch := omega) only [List.cons_append, List.nil_append,
    List.cons_lt_cons_iff, UInt8.lt_iff_toNat_lt, ← UInt8.toNat_inj, byte] <;> omega

theorem flatMap_utf8EncodeChar_lt {cs ds : List Char} (less : cs < ds) :
    cs.flatMap String.utf8EncodeChar < ds.flatMap String.utf8EncodeChar := by
  induction less with
  | @nil d ds =>
    obtain ⟨b, bs, first⟩ :=
      List.exists_cons_of_ne_nil (String.utf8EncodeChar_ne_nil (c := d))
    rw [List.flatMap_cons, first]
    exact List.nil_lt_cons _ _
  | rel less => exact utf8EncodeChar_append_lt less _ _
  | @cons c cs ds less ih => exact List.append_left_lt ih

/-- Texts and their bytes have the same order. -/
theorem bytes_lt_iff {a b : String} : bytes a < bytes b ↔ a < b := by
  rw [bytes_eq, bytes_eq, String.lt_iff_toList_lt]
  constructor
  · intro less
    rcases lt_trichotomy a.toList b.toList with before | same | after
    · exact before
    · rw [same] at less
      exact absurd less (List.lt_irrefl _)
    · exact absurd (flatMap_utf8EncodeChar_lt after) (List.lt_asymm less)
  · exact flatMap_utf8EncodeChar_lt

theorem bytes_le_iff {a b : String} : bytes a ≤ bytes b ↔ a ≤ b := by
  rw [← List.not_lt, ← String.not_lt, bytes_lt_iff]

/-! ## The character at a byte -/

theorem exists_char_of_getElem? {cs : List Char} {i : Nat} {b : UInt8}
    (found : (cs.flatMap String.utf8EncodeChar)[i]? = some b) : ∃ before c behind,
      cs = before ++ c :: behind ∧ byteLength before ≤ i ∧ i < byteLength before + c.utf8Size ∧
        b ∈ String.utf8EncodeChar c := by
  induction cs generalizing i with
  | nil => cases found
  | cons c cs ih =>
    have length := String.length_utf8EncodeChar c
    rw [List.flatMap_cons] at found
    by_cases here : i < c.utf8Size
    · rw [List.getElem?_append_left (length.symm ▸ here)] at found
      exact ⟨[], c, cs, rfl, Nat.zero_le i, by simpa using here, List.mem_of_getElem? found⟩
    · rw [List.getElem?_append_right (length.symm ▸ Nat.le_of_not_lt here), length] at found
      obtain ⟨before, d, behind, rfl, start, stop, member⟩ := ih found
      refine ⟨c :: before, d, behind, rfl, ?_, ?_, member⟩
      · rw [byteLength_cons]
        omega
      · rw [byteLength_cons]
        omega

/-- The byte of a blank is the blank itself. -/
theorem byte_of_isBlank {c : Char} (blank : isBlank c = true) {b : UInt8}
    (member : b ∈ String.utf8EncodeChar c) : b ≤ 0x20 := by
  have small : c.val.toNat ≤ 32 := of_decide_eq_true blank
  rw [String.utf8EncodeChar.eq_def, if_pos (Nat.le_trans small (by decide)),
    List.mem_singleton] at member
  rw [member, UInt8.le_iff_toNat_le]
  rw [UInt8.toNat_ofNat_of_lt' (Nat.lt_of_le_of_lt small (by decide))]
  exact small

end TreeDiagram
