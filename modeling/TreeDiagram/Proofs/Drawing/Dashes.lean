import Mathlib.Data.List.Forall2
import TreeDiagram.Drawing.Paint
import TreeDiagram.Proofs.Text.Digits
/-!
# Dash patterns are read as far as they go

The text of a dash pattern is cut at its separators, and the parts between them are lengths up to
the first that is none. Whatever numbers of the right size are written with separators between,
before and behind them are read as a pattern of just these numbers, if there are two of them.
-/

namespace TreeDiagram

namespace Dash

open Numeral

/-- A text that is a number: decimal digits, or hexadecimal ones behind a mark, perhaps with a plus
sign in front of the digits. -/
inductive NumberText : List Char → Nat → Prop
  | decimal {sign digits : List Char} {n : Nat} (isSign : sign = [] ∨ sign = ['+'])
      (writes : Writes 10 digits n) : NumberText (sign ++ digits) n
  | hexadecimal {mark : Char} {sign digits : List Char} {n : Nat} (isMark : mark = 'x' ∨ mark = 'X')
      (isSign : sign = [] ∨ sign = ['+']) (writes : Writes 16 digits n) :
      NumberText ('0' :: mark :: (sign ++ digits)) n

/-- A text that is a number from 1 to 255. -/
structure LengthText (part : List Char) (n : Nat) : Prop where
  number : NumberText part n
  positive : 1 ≤ n
  byte : n ≤ 255

/-- The parts of a text when it is cut at each separator and empty parts are dropped. -/
def pieces (cs : List Char) : List (List Char) :=
  (cs.splitOnP isSeparator).filter fun part => !part.isEmpty

/-- What the parts denote that stand in front of the first that is no length. -/
def Leads (parts : List (List Char)) (lengths : List Nat) : Prop :=
  ∃ good bad, parts = good ++ bad ∧ List.Forall₂ LengthText good lengths ∧
    ∀ part, bad.head? = some part → ∀ n, ¬LengthText part n

/-- A text of separators only. -/
def Separators (cs : List Char) : Prop :=
  ∀ c ∈ cs, isSeparator c = true

instance (cs : List Char) : Decidable (Separators cs) :=
  List.decidableBAll (fun c => isSeparator c = true) cs

/-- Lengths written one after the other, with separators between them and perhaps behind the last.
-/
inductive Row : List Nat → List Char → Prop
  | last {part trail : List Char} {n : Nat} (length : LengthText part n)
      (separators : Separators trail) : Row [n] (part ++ trail)
  | more {part gap cs : List Char} {n : Nat} {lengths : List Nat} (length : LengthText part n)
      (notEmpty : gap ≠ []) (separators : Separators gap) (rest : Row lengths cs) :
      Row (n :: lengths) (part ++ (gap ++ cs))

/-! ## Parts -/

theorem pieces_separator {c : Char} (separator : isSeparator c = true) (cs : List Char) :
    pieces (c :: cs) = pieces cs := by
  rw [pieces, List.splitOnP_cons_eq_if_modifyHead, if_pos separator]
  rfl

theorem pieces_part_cons {part : List Char} (notEmpty : part ≠ [])
    (inside : ∀ c ∈ part, isSeparator c = false) {c : Char} (separator : isSeparator c = true)
    (cs : List Char) : pieces (part ++ c :: cs) = part :: pieces cs := by
  rw [pieces, List.splitOnP_append_cons_of_forall_mem inside c separator]
  exact List.filter_cons_of_pos (by simpa using notEmpty)

theorem pieces_part {part : List Char} (notEmpty : part ≠ [])
    (inside : ∀ c ∈ part, isSeparator c = false) : pieces part = [part] := by
  rw [pieces, List.splitOnP_eq_singleton inside]
  exact List.filter_cons_of_pos (by simpa using notEmpty)

/-- A character that is no separator belongs to the piece that begins behind it, if one does. -/
theorem pieces_cons {c d : Char} (inside : isSeparator c = false) (inside' : isSeparator d = false)
    (cs : List Char) : ∃ part others, pieces (d :: cs) = part :: others ∧
      pieces (c :: d :: cs) = (c :: part) :: others := by
  obtain ⟨first, later, split⟩ := List.exists_cons_of_ne_nil (List.splitOnP_ne_nil isSeparator cs)
  have here : List.splitOnP isSeparator (d :: cs) = (d :: first) :: later := by
    rw [List.splitOnP_cons_eq_if_modifyHead, if_neg (by simp [inside']), split]
    rfl
  refine ⟨d :: first, later.filter fun part => !part.isEmpty, ?_, ?_⟩
  · rw [pieces, here]
    rfl
  · rw [pieces, List.splitOnP_cons_eq_if_modifyHead, if_neg (by simp [inside]), here]
    rfl

theorem parts_eq_pieces (cs : List Char) : parts cs = pieces cs := by
  fun_induction parts cs with
  | case1 => rfl
  | case2 c cs separator ih => rw [ih, pieces_separator separator]
  | case3 c inside => exact (pieces_part (List.cons_ne_nil c []) (by simpa using inside)).symm
  | case4 c inside d cs separator ih =>
    have front := pieces_part_cons (List.cons_ne_nil c []) (by simpa using inside) separator cs
    rw [ih, pieces_separator separator]
    exact front.symm
  | case5 c inside d cs inside' nothing ih =>
    obtain ⟨part, others, here, -⟩ :=
      pieces_cons (Bool.eq_false_iff.mpr inside) (Bool.eq_false_iff.mpr inside') cs
    rw [nothing, here] at ih
    cases ih
  | case6 c inside d cs inside' part others found ih =>
    obtain ⟨part', others', here, whole⟩ :=
      pieces_cons (Bool.eq_false_iff.mpr inside) (Bool.eq_false_iff.mpr inside') cs
    rw [found, here] at ih
    cases ih
    rw [found]
    exact whole.symm

/-! ## Lengths -/

theorem plus_ne_digit {radix : Radix} {c : Char} (digit : radix.isDigit c = true) : c ≠ '+' := by
  rintro rfl
  cases radix <;> exact absurd digit (by decide)

/-- One plus sign may stand in front of digits. -/
theorem ofDigits?_withoutPlus {radix : Radix} {cs : List Char} {n : Nat} :
    ofDigits? radix (withoutPlus cs) = some n ↔ ∃ sign digits,
      (sign = [] ∨ sign = ['+']) ∧ cs = sign ++ digits ∧ Writes radix.base digits n := by
  rw [ofDigits?_eq_some_iff_writes]
  constructor
  · intro writes
    unfold withoutPlus at writes
    split at writes
    · exact ⟨['+'], _, .inr rfl, rfl, writes⟩
    · exact ⟨[], _, .inl rfl, rfl, writes⟩
  · rintro ⟨sign, digits, rfl | rfl, rfl, writes⟩
    · unfold withoutPlus
      split
      · have first := ((writes_iff radix).mp writes).2.1 '+' List.mem_cons_self
        exact absurd rfl (plus_ne_digit first)
      · exact writes
    · exact writes

/-- The value of a part before its size is checked. -/
def value? (part : List Char) : Option Nat :=
  match afterMark? part with
  | some digits => ofDigits? .hexadecimal (withoutPlus digits)
  | none => ofDigits? .decimal (withoutPlus part)

theorem value?_eq_some_iff {part : List Char} {n : Nat} :
    value? part = some n ↔ NumberText part n := by
  unfold value?
  constructor
  · intro found
    split at found
    · next digits marked =>
      obtain ⟨mark, isMark, rfl⟩ := afterMark?_eq_some_iff.mp marked
      obtain ⟨sign, digits, isSign, rfl, writes⟩ := ofDigits?_withoutPlus.mp found
      exact .hexadecimal isMark isSign writes
    · obtain ⟨sign, digits, isSign, rfl, writes⟩ := ofDigits?_withoutPlus.mp found
      exact .decimal isSign writes
  · intro number
    cases number with
    | @decimal sign digits n isSign writes =>
      have unmarked : afterMark? (sign ++ digits) = none := by
        cases marked : afterMark? (sign ++ digits) with
        | none => rfl
        | some rest =>
          obtain ⟨mark, isMark, whole⟩ := afterMark?_eq_some_iff.mp marked
          rcases isSign with rfl | rfl
          · have digit := ((writes_iff .decimal).mp writes).2.1 mark (by
              rw [← List.nil_append digits, whole]
              simp)
            rcases isMark with rfl | rfl <;> exact absurd digit (by decide)
          · cases whole
      rw [unmarked]
      exact ofDigits?_withoutPlus.mpr ⟨sign, digits, isSign, rfl, writes⟩
    | hexadecimal isMark isSign writes =>
      rw [afterMark?_eq_some_iff.mpr ⟨_, isMark, rfl⟩]
      exact ofDigits?_withoutPlus.mpr ⟨_, _, isSign, rfl, writes⟩

theorem length?_eq_some_iff {part : List Char} {n : Nat} :
    length? part = some n ↔ LengthText part n := by
  have checked : length? part = (value? part).filter fun n => decide (1 ≤ n) && decide (n ≤ 255) :=
    rfl
  rw [checked, Option.filter_eq_some_iff, value?_eq_some_iff, Bool.and_eq_true, decide_eq_true_eq,
    decide_eq_true_eq]
  exact ⟨fun ⟨number, positive, byte⟩ => ⟨number, positive, byte⟩,
    fun ⟨number, positive, byte⟩ => ⟨number, positive, byte⟩⟩

/-- The length that a part is, computed in a register. -/
def lengthIn? (bits : Nat) (part : List Char) : Option Nat :=
  let value :=
    match afterMark? part with
    | some digits => ofDigitsIn? bits .hexadecimal (withoutPlus digits)
    | none => ofDigitsIn? bits .decimal (withoutPlus part)
  value.filter fun n => decide (1 ≤ n) && decide (n ≤ 255)

/-- A register that holds 255 is wide enough. -/
theorem lengthIn?_eq {bits : Nat} (wide : 255 < 2 ^ bits) (part : List Char) :
    lengthIn? bits part = length? part := by
  have narrow (value : Option Nat) : (value.filter (· < 2 ^ bits)).filter
      (fun n => decide (1 ≤ n) && decide (n ≤ 255)) =
        value.filter fun n => decide (1 ≤ n) && decide (n ≤ 255) := by
    rw [Option.filter_filter]
    congr 1
    funext n
    by_cases byte : n ≤ 255
    · simp [byte, Nat.lt_of_le_of_lt byte wide]
    · simp [byte]
  unfold lengthIn? length?
  cases afterMark? part with
  | some digits => simp only [ofDigitsIn?_eq, narrow]
  | none => simp only [ofDigitsIn?_eq, narrow]

/-! ## Leading lengths -/

theorem leads_leading (ps : List (List Char)) : Leads ps (leading ps) := by
  induction ps with
  | nil => exact ⟨[], [], rfl, .nil, by simp⟩
  | cons part others ih =>
    rw [leading]
    cases found : length? part with
    | none =>
      refine ⟨[], part :: others, rfl, .nil, ?_⟩
      intro bad first n length
      cases first
      rw [length?_eq_some_iff.mpr length] at found
      cases found
    | some n =>
      obtain ⟨good, bad, rfl, lengths, stops⟩ := ih
      exact ⟨part :: good, bad, rfl, .cons (length?_eq_some_iff.mp found) lengths, stops⟩

theorem leading_eq_iff {ps : List (List Char)} {ns : List Nat} : leading ps = ns ↔ Leads ps ns := by
  constructor
  · rintro rfl
    exact leads_leading ps
  · rintro ⟨good, bad, rfl, lengths, stops⟩
    induction lengths with
    | nil =>
      cases bad with
      | nil => rfl
      | cons part others =>
        rw [List.nil_append, leading]
        cases found : length? part with
        | none => rfl
        | some n => exact absurd (length?_eq_some_iff.mp found) (stops part rfl n)
    | cons length _ ih => rw [List.cons_append, leading, length?_eq_some_iff.mpr length, ih]

theorem parse?_eq (text : String) : parse? text =
    if 2 ≤ (leading (pieces text.toList)).length then some ⟨leading (pieces text.toList)⟩
    else none := by
  rw [parse?, parts_eq_pieces]

/-! ## Rows of lengths -/

theorem isSeparator_eq_false {c : Char} (digit : isHexDigit c = true) : isSeparator c = false :=
  of_isHexDigit (fun c => isSeparator c = false) (by decide) digit

theorem NumberText.inside {part : List Char} {n : Nat} (number : NumberText part n) :
    part ≠ [] ∧ ∀ c ∈ part, isSeparator c = false := by
  have signs : ∀ sign, sign = [] ∨ sign = ['+'] → ∀ c ∈ sign, isSeparator c = false := by
    rintro sign (rfl | rfl)
    · exact List.forall_mem_nil _
    · exact List.forall_mem_singleton.mpr rfl
  cases number with
  | @decimal sign digits n isSign writes =>
    obtain ⟨notEmpty, digits, -⟩ := (writes_iff .decimal).mp writes
    refine ⟨List.append_ne_nil_of_right_ne_nil sign notEmpty, ?_⟩
    refine List.forall_mem_append.mpr ⟨signs sign isSign, fun c member => ?_⟩
    exact isSeparator_eq_false (isHexDigit_of_isDigit (digits c member))
  | @hexadecimal mark sign digits n isMark isSign writes =>
    obtain ⟨-, digits, -⟩ := (writes_iff .hexadecimal).mp writes
    have marks : isSeparator mark = false := by rcases isMark with rfl | rfl <;> decide
    refine ⟨List.cons_ne_nil _ _, List.forall_mem_cons.mpr ⟨by decide, ?_⟩⟩
    refine List.forall_mem_cons.mpr ⟨marks, ?_⟩
    refine List.forall_mem_append.mpr ⟨signs sign isSign, fun c member => ?_⟩
    exact isSeparator_eq_false (digits c member)

theorem pieces_separators {gap : List Char} (separators : Separators gap) (cs : List Char) :
    pieces (gap ++ cs) = pieces cs := by
  induction gap with
  | nil => rfl
  | cons c gap ih =>
    obtain ⟨first, later⟩ := List.forall_mem_cons.mp separators
    rw [List.cons_append, pieces_separator first, ih later]

theorem pieces_append_gap {part gap : List Char} {n : Nat} (number : NumberText part n)
    (notEmpty : gap ≠ []) (separators : Separators gap) (cs : List Char) :
    pieces (part ++ (gap ++ cs)) = part :: pieces cs := by
  obtain ⟨c, gap, rfl⟩ := List.exists_cons_of_ne_nil notEmpty
  obtain ⟨first, later⟩ := List.forall_mem_cons.mp separators
  obtain ⟨some_, inside⟩ := number.inside
  rw [List.cons_append, pieces_part_cons some_ inside first, pieces_separators later]

/-- The pieces of a row are the lengths in it. -/
theorem Row.forall₂_pieces {lengths : List Nat} {cs : List Char} (row : Row lengths cs) :
    List.Forall₂ LengthText (pieces cs) lengths := by
  induction row with
  | @last part trail n length separators =>
    by_cases nothing : trail = []
    · obtain ⟨some_, inside⟩ := length.number.inside
      rw [nothing, List.append_nil, pieces_part some_ inside]
      exact .cons length .nil
    · have alone := pieces_append_gap length.number nothing separators []
      rw [List.append_nil] at alone
      rw [alone]
      exact .cons length .nil
  | more length notEmpty separators rest ih =>
    rw [pieces_append_gap length.number notEmpty separators]
    exact .cons length ih

theorem parse?_of_row {lead cs : List Char} {lengths : List Nat} (separators : Separators lead)
    (row : Row lengths cs) (two : 2 ≤ lengths.length) :
    parse? (String.ofList (lead ++ cs)) = some ⟨lengths⟩ := by
  have all : leading (pieces (lead ++ cs)) = lengths := by
    rw [pieces_separators separators]
    exact leading_eq_iff.mpr ⟨_, [], (List.append_nil _).symm, row.forall₂_pieces, by simp⟩
  rw [parse?_eq, String.toList_ofList, all, if_pos two]

/-- A text is a dash pattern of the lengths with which its parts begin, if there are two of them,
and the last of them is also the offset; a number that is too large is no length, whatever a
register of 32 bits makes of it. Any two or more lengths, in decimal or hexadecimal, with any
separators between them, in front of them and behind them are read as just these lengths. -/
theorem parse?_longest_prefix (text : String) :
    (∀ d, parse? text = some d ↔
        Leads (pieces text.toList) d.lengths ∧ 2 ≤ d.lengths.length) ∧
      (parse? text = none ↔ ∃ lengths, Leads (pieces text.toList) lengths ∧ lengths.length < 2) ∧
      (∀ d, parse? text = some d → d.lengths.getLast? = some d.offset) ∧
      (∀ part, length? part = lengthIn? 32 part) ∧
      (∀ n, 1 ≤ n → n ≤ 255 → LengthText (toString n).toList n ∧
        LengthText ('0' :: 'x' :: Nat.toDigits 16 n) n) ∧
      ∀ lead lengths cs, Separators lead → Row lengths cs → 2 ≤ lengths.length →
        parse? (String.ofList (lead ++ cs)) = some ⟨lengths⟩ := by
  refine ⟨?_, ?_, ?_, fun part => (lengthIn?_eq (by decide) part).symm, ?_,
    fun lead lengths cs => parse?_of_row⟩
  · rintro ⟨lengths⟩
    rw [← leading_eq_iff, parse?_eq]
    split
    · next two =>
      simp only [Option.some.injEq, mk.injEq]
      exact ⟨fun same => ⟨same, same ▸ two⟩, And.left⟩
    · next few =>
      constructor
      · intro impossible
        cases impossible
      · rintro ⟨rfl, two⟩
        exact absurd two few
  · simp only [← leading_eq_iff, exists_eq_left', parse?_eq]
    split
    · next two => simp [Nat.not_lt.mpr two]
    · next few => simp [Nat.lt_of_not_le few]
  · rintro ⟨lengths⟩ found
    rw [parse?_eq] at found
    split at found
    · next two =>
      cases found
      have some_ := List.length_pos_iff.mp (Nat.lt_of_lt_of_le Nat.zero_lt_two two)
      rw [offset, List.getLast?_eq_some_getLast some_, Option.getD_some]
    · cases found
  · intro n positive byte
    rw [toList_toString]
    refine ⟨⟨?_, positive, byte⟩, ⟨?_, positive, byte⟩⟩
    · exact .decimal (.inl rfl) (writes_toDigits (by decide) n)
    · exact .hexadecimal (.inl rfl) (.inl rfl) (writes_toDigits (by decide) n)

/-- Lengths in both bases with separators around them are read, and 300 is too large to be one. -/
theorem parse?_longest_prefix_row :
    (Separators " ;".toList ∧ Row [16, 2] "0x10| +2:".toList ∧
        parse? " ;0x10| +2:" = some ⟨[16, 2]⟩ ∧ [16, 2].getLast? = some (⟨[16, 2]⟩ : Dash).offset) ∧
      (Leads (pieces "4 300 2".toList) [4] ∧ parse? "4 300 2" = none) ∧
      LengthText (toString 255).toList 255 ∧
      LengthText ('0' :: 'x' :: Nat.toDigits 16 255) 255 := by
  have hexadecimal : LengthText "0x10".toList 16 := length?_eq_some_iff.mp (by decide)
  have decimal : LengthText "+2".toList 2 := length?_eq_some_iff.mp (by decide)
  have gap : Separators "| ".toList := by decide
  have trail : Separators ":".toList := by decide
  have lead : Separators " ;".toList := by decide
  have row : Row [16, 2] "0x10| +2:".toList :=
    .more hexadecimal (by decide) gap (.last decimal trail)
  have stops : Leads (pieces "4 300 2".toList) [4] := leading_eq_iff.mp (by decide +kernel)
  obtain ⟨-, -, offset, -, -, rows⟩ := parse?_longest_prefix " ;0x10| +2:"
  obtain ⟨-, nothing, -, -, written, -⟩ := parse?_longest_prefix "4 300 2"
  have read := rows _ _ _ lead row (by decide)
  refine ⟨⟨lead, row, read, offset _ read⟩, ⟨stops, nothing.mpr ⟨[4], stops, by decide⟩⟩, ?_⟩
  exact written 255 (by decide) (by decide)

end Dash

end TreeDiagram
