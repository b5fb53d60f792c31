import TreeDiagram.Property.Styling
import TreeDiagram.Proofs.Property.Acceptance
import TreeDiagram.Proofs.Text.Digits
import TreeDiagram.Proofs.Text.Places
/-!
# Property lines written out

A value that its property takes can be written on a property line, if it is a number or a text of
printable characters without quotes: in decimal, or in quotes. Any assignments of such values to the
whole diagram can so be made by a single line.
-/

namespace TreeDiagram

/-- The line that makes assignments to the whole diagram. -/
def globalLine (assignments : List (Property × Value)) : String :=
  "[" ++ ", ".intercalate (assignments.map fun a => a.1.name ++ "=" ++ a.2.display) ++ "]"

/-- A value that can be written on a line: if it is a text, then one of printable characters without
quotes. -/
def Value.Plain (v : Value) : Prop :=
  ∀ text, v = .text text → ∀ c ∈ text.toList, ' ' ≤ c ∧ c ≤ '~' ∧ c ≠ '"'

theorem Value.Plain.isQuotable {text : String} (plain : (Value.text text).Plain) :
    ∀ c ∈ text.toList, Line.isQuotable c = true := by
  intro c member
  obtain ⟨low, high, unquoted⟩ := plain text rfl c member
  simp [Line.isQuotable, isPrintable, low, high, unquoted]

/-- No rule takes texts that are too long for a line. -/
theorem Property.length_le {p : Property} {min max : Nat} (rule : p.rule = .length min max) :
    max ≤ maxTokenLength := by
  cases p <;> cases rule <;> decide

namespace Line

/-- A value that is written out is read back, unless a digit follows. -/
theorem exists_valueText_display {p : Property} {v : Value} (admits : p.rule.Admits v)
    (plain : v.Plain) (behind : List Char)
    (ends : ∀ c, behind.head? = some c → isDigit c = false) : ∃ raw,
      ValueText p.rule raw v.display.toList behind ∧ byteLength raw ≤ maxTokenLength ∧
        Means raw v := by
  cases rule : p.rule with
  | range min max =>
    rw [rule] at admits
    cases v with
    | text => exact admits.elim
    | number n =>
      have fits : n ≤ maxWord := by
        have most := p.rule_fits
        rw [rule] at most
        exact Nat.le_trans admits.2 most
      have digits : ∀ c ∈ (toString n).toList, isDigit c = true :=
        fun c => Numeral.isDigit_of_mem_toString
      have short : byteLength (toString n).toList ≤ maxTokenLength := by
        rw [byteLength_eq_length fun c member =>
          utf8Size_of_isHexDigit (isHexDigit_of_isDigit (digits c member)), Numeral.toList_toString,
          Nat.length_toDigits_le_iff (by decide) (by decide)]
        exact Nat.lt_of_le_of_lt fits (Nat.lt_of_lt_of_le (by decide : maxWord < 10 ^ 10)
          (Nat.pow_le_pow_right (by decide) (by decide)))
      exact ⟨_, .decimal (Numeral.toString_ne_nil n) ⟨digits, ends⟩, short,
        .number (Numeral.denotes_toString n)⟩
  | length min max =>
    rw [rule] at admits
    cases v with
    | number => exact admits.elim
    | text text =>
      have short : byteLength text.toList ≤ maxTokenLength := by
        rw [byteLength_toList]
        exact Nat.le_trans admits.2 (Property.length_le rule)
      have written : (Value.text text).display.toList = '"' :: (text.toList ++ ['"']) := by
        simp [Value.display, String.toList_append]
      have means : Means text.toList (.text text) := by
        have same : Means text.toList (.text (String.ofList text.toList)) := .text
        rwa [String.ofList_toList] at same
      rw [written]
      exact ⟨_, .quoted plain.isQuotable, short, means⟩

/-- An assignment that is written out is read back, unless a digit follows. -/
theorem pairText_display {p : Property} {v : Value} (admits : p.rule.Admits v) (plain : v.Plain)
    (behind : List Char) (ends : ∀ c, behind.head? = some c → isDigit c = false) :
    PairText p v (p.name ++ "=" ++ v.display).toList behind := by
  obtain ⟨raw, value, short, means⟩ := exists_valueText_display admits plain behind ends
  have written : (p.name ++ "=" ++ v.display).toList =
      p.name.toList ++ ([] ++ '=' :: ([] ++ v.display.toList)) := by
    simp [String.toList_append]
  rw [written]
  exact .intro blanks_nil blanks_nil value short means admits

/-- Assignments that are written out between commas are read back. -/
theorem exists_pairsText_display {assignments : List (Property × Value)} (some : assignments ≠ [])
    (writable : ∀ a ∈ assignments, a.1.rule.Admits a.2 ∧ a.2.Plain) (pos : Nat) :
    ∃ pairs : List Assignment, pairs.map Assignment.pair = assignments ∧
      PairsText pos pairs
        ((", ".intercalate (assignments.map fun a => a.1.name ++ "=" ++ a.2.display)).toList ++
          [']']) [] := by
  induction assignments generalizing pos with
  | nil => exact absurd rfl some
  | cons a later ih =>
    obtain ⟨⟨admits, plain⟩, others⟩ := List.forall_mem_cons.mp writable
    cases later with
    | nil =>
      have pair := pairText_display admits plain [']'] (by simp [isDigit])
      rw [List.map_singleton, String.intercalate_singleton]
      exact ⟨[⟨a.1, a.2, _⟩], rfl, .last blanks_nil pair (.blanks blanks_nil)⟩
    | cons b later =>
      have comma : Gap [',', ' '] :=
        .separator blanks_nil (.inl rfl) (by decide)
      have pair := pairText_display admits plain ([',', ' '] ++
        ((", ".intercalate ((b :: later).map fun a => a.1.name ++ "=" ++ a.2.display)).toList ++
          [']'])) (by simp [isDigit])
      obtain ⟨pairs, same, inside⟩ := ih (List.cons_ne_nil b later) others
        (pos + byteLength ([] ++ ((a.1.name ++ "=" ++ a.2.display).toList ++ [',', ' '])))
      have more := PairsText.more blanks_nil pair comma inside
      rw [List.map_cons, List.map_cons, String.intercalate_cons_cons, String.toList_append,
        String.toList_append, List.append_assoc, List.append_assoc]
      refine ⟨_, ?_, more⟩
      rw [List.map_cons, same]
      rfl

theorem exists_lineText_globalLine {assignments : List (Property × Value)} (some : assignments ≠ [])
    (writable : ∀ a ∈ assignments, a.1.rule.Admits a.2 ∧ a.2.Plain) :
    ∃ pairs : List Assignment, pairs.map Assignment.pair = assignments ∧
      LineText .global pairs (globalLine assignments).toList := by
  obtain ⟨pairs, same, inside⟩ := exists_pairsText_display some writable 1
  have written : (globalLine assignments).toList = [] ++ '[' ::
      ((", ".intercalate (assignments.map fun a => a.1.name ++ "=" ++ a.2.display)).toList ++
        [']']) := by
    simp [globalLine, String.toList_append]
  rw [written]
  exact ⟨pairs, same, .whole blanks_nil inside (.nothing (.blanks blanks_nil))⟩

end Line

/-! ## The characters of the line -/

theorem forall_mem_intercalate {P : Char → Prop} {separator : String} {pieces : List String}
    (between : ∀ c ∈ separator.toList, P c) (inside : ∀ piece ∈ pieces, ∀ c ∈ piece.toList, P c) :
    ∀ c ∈ (separator.intercalate pieces).toList, P c := by
  induction pieces with
  | nil => simp
  | cons piece later ih =>
    obtain ⟨first, others⟩ := List.forall_mem_cons.mp inside
    cases later with
    | nil =>
      rw [String.intercalate_singleton]
      exact first
    | cons next later =>
      intro c member
      rw [String.intercalate_cons_cons, String.toList_append, String.toList_append, List.mem_append,
        List.mem_append] at member
      rcases member with (here | mark) | behind
      · exact first c here
      · exact between c mark
      · exact ih others c behind

theorem le_of_isAlphanumeric {c : Char} (letter : isAlphanumeric c = true) : ' ' ≤ c := by
  have visible := isBlank_of_isAlphanumeric letter
  rw [isBlank, decide_eq_false_iff_not] at visible
  exact (Char.le_total ' ' c).resolve_right visible

theorem Value.Plain.le_of_mem_display {v : Value} (plain : v.Plain) :
    ∀ c ∈ v.display.toList, ' ' ≤ c := by
  intro c member
  cases v with
  | number n =>
    exact le_of_isAlphanumeric (isAlphanumeric_of_isDigit (Numeral.isDigit_of_mem_toString member))
  | text text =>
    simp only [Value.display, String.toList_append, List.mem_append] at member
    rcases member with (quote | inside) | quote
    · rw [List.mem_singleton.mp quote]
      decide
    · exact (plain text rfl c inside).1
    · rw [List.mem_singleton.mp quote]
      decide

/-- What is written out stands on one line. -/
theorem newline_notMem_globalLine {assignments : List (Property × Value)}
    (plain : ∀ a ∈ assignments, a.2.Plain) : '\n' ∉ (globalLine assignments).toList := by
  have pieces : ∀ piece ∈ assignments.map fun a => a.1.name ++ "=" ++ a.2.display,
      ∀ c ∈ piece.toList, ' ' ≤ c := by
    intro piece member c inPiece
    obtain ⟨a, inLine, rfl⟩ := List.mem_map.mp member
    simp only [String.toList_append, List.mem_append] at inPiece
    rcases inPiece with (inName | equals) | inValue
    · exact le_of_isAlphanumeric (a.1.alphanumeric_name c inName)
    · rw [List.mem_singleton.mp equals]
      decide
    · exact (plain a inLine).le_of_mem_display c inValue
  have all : ∀ c ∈ (globalLine assignments).toList, ' ' ≤ c := by
    intro c member
    simp only [globalLine, String.toList_append, List.mem_append] at member
    rcases member with (bracket | inside) | bracket
    · rw [List.mem_singleton.mp bracket]
      decide
    · exact forall_mem_intercalate (by simp) pieces c inside
    · rw [List.mem_singleton.mp bracket]
      decide
  intro member
  exact absurd (all '\n' member) (by decide)

end TreeDiagram
