import TreeDiagram.Property.Table
import TreeDiagram.Property.Validation
import TreeDiagram.Proofs.Outcome
import TreeDiagram.Proofs.Text.Numeral
/-!
# What raw values mean

A raw text means the number that it denotes, or itself. It is a value of a property exactly if the
rule of the property admits what it means. A label names the node of the number that it denotes.
-/

namespace TreeDiagram

/-- A raw text read as a number or as a text. -/
inductive Means (raw : List Char) : Value → Prop
  | number {n : Nat} (denotes : Numeral.Denotes raw n) : Means raw (.number n)
  | text : Means raw (.text (String.ofList raw))

theorem readUnsigned_eq_ok_iff {raw : String} {n : Nat} :
    readUnsigned raw = .ok n ↔ Numeral.Denotes raw.toList n ∧ n ≤ maxWord := by
  rw [← Numeral.read?_eq_some_iff, readUnsigned]
  cases Numeral.read? raw.toList with
  | none => simp
  | some m =>
    by_cases fits : m ≤ maxWord
    · simp only [if_pos fits, Except.ok.injEq, Option.some.injEq]
      constructor
      · rintro rfl
        exact ⟨rfl, fits⟩
      · exact And.left
    · simp only [if_neg fits, Option.some.injEq]
      constructor
      · intro impossible
        cases impossible
      · rintro ⟨rfl, small⟩
        exact absurd small fits

theorem nodeOfLabel?_eq_some_iff {label : String} {k : NodeId} :
    nodeOfLabel? label = some k ↔ Numeral.Denotes label.toList k ∧ k ≤ maxNodeId := by
  rw [← Numeral.read?_eq_some_iff, nodeOfLabel?]
  cases Numeral.read? label.toList with
  | none => simp
  | some n =>
    by_cases inside : n ≤ maxNodeId
    · simp only [if_pos inside, Option.some.injEq]
      constructor
      · rintro rfl
        exact ⟨rfl, inside⟩
      · exact And.left
    · simp only [if_neg inside, Option.some.injEq]
      constructor
      · intro impossible
        cases impossible
      · rintro ⟨rfl, small⟩
        exact absurd small inside

namespace Rule

/-- No number above those that fit in 32 bits is asked for. -/
def Fits : Rule → Prop
  | .range _ max => max ≤ maxWord
  | .length _ _ => True

theorem means_of_validate {rule : Rule} {raw : List Char} {v : Value}
    (valid : rule.validate (String.ofList raw) = .ok v) : Means raw v ∧ rule.Admits v := by
  cases rule with
  | range min max =>
    obtain ⟨n, read, valid⟩ := bind_eq_ok.mp valid
    split at valid
    · cases valid
    · next inside =>
      cases valid
      rw [not_or, Nat.not_lt, Nat.not_lt] at inside
      have denotes := (readUnsigned_eq_ok_iff.mp read).1
      rw [String.toList_ofList] at denotes
      exact ⟨.number denotes, inside⟩
  | length min max =>
    simp only [Rule.validate] at valid
    split at valid
    · cases valid
    · next inside =>
      cases valid
      rw [not_or, Nat.not_lt, Nat.not_lt] at inside
      exact ⟨.text, inside⟩

theorem admits_of_validate {rule : Rule} {raw : String} {v : Value}
    (valid : rule.validate raw = .ok v) : rule.Admits v := by
  rw [← String.ofList_toList (s := raw)] at valid
  exact (means_of_validate valid).2

theorem validate_of_means {rule : Rule} {raw : List Char} {v : Value} (fits : rule.Fits)
    (means : Means raw v) (admits : rule.Admits v) :
    rule.validate (String.ofList raw) = .ok v := by
  cases rule with
  | range min max =>
    cases means with
    | @number n denotes =>
      have read : readUnsigned (String.ofList raw) = .ok n := by
        apply readUnsigned_eq_ok_iff.mpr
        rw [String.toList_ofList]
        exact ⟨denotes, Nat.le_trans admits.2 fits⟩
      simp only [Rule.validate, read, bind, Except.bind]
      rw [if_neg]
      rw [not_or, Nat.not_lt, Nat.not_lt]
      exact admits
    | text => exact admits.elim
  | length min max =>
    cases means with
    | number => exact admits.elim
    | text =>
      simp only [Rule.validate]
      rw [if_neg]
      rw [not_or, Nat.not_lt, Nat.not_lt]
      exact admits

end Rule

namespace Property

theorem rule_fits (p : Property) : p.rule.Fits := by
  cases p <;> simp [rule, Rule.Fits, maxWord]

/-- A raw text is a value of a property exactly if it means one that the property takes. -/
theorem validate_eq_ok_iff {p : Property} {raw : List Char} {v : Value} :
    p.validate (String.ofList raw) = .ok v ↔ Means raw v ∧ p.rule.Admits v := by
  constructor
  · exact Rule.means_of_validate
  · rintro ⟨means, admits⟩
    exact Rule.validate_of_means p.rule_fits means admits

theorem name_of_ofName? {name : List Char} {p : Property}
    (found : ofName? (String.ofList name) = some p) : p.name.toList = name := by
  have same : p.name = String.ofList name := by
    have := List.find?_some found
    exact eq_of_beq this
  rw [same, String.toList_ofList]

theorem alphanumeric_name (p : Property) : ∀ c ∈ p.name.toList, isAlphanumeric c = true := by
  have letters : p.name.toList.all isAlphanumeric = true := by
    cases p <;> decide
  exact List.all_eq_true.mp letters

/-- The name of a property begins with an upper-case letter other than the mark of a hexadecimal
numeral. -/
theorem exists_name_eq_cons (p : Property) : ∃ c cs, p.name.toList = c :: cs ∧
    isAlphanumeric c = true ∧ isBlank c = false ∧ c ≠ 'x' ∧ c ≠ 'X' := by
  have first : (p.name.toList.head?.map fun c =>
      isAlphanumeric c && !isBlank c && c != 'x' && c != 'X') = some true := by
    cases p <;> decide
  cases name : p.name.toList with
  | nil =>
    rw [name] at first
    cases first
  | cons c cs =>
    rw [name] at first
    have facts := Option.some.inj first
    simp only [Bool.and_eq_true, Bool.not_eq_true', bne_iff_ne, and_assoc] at facts
    exact ⟨c, cs, rfl, facts⟩

end Property

end TreeDiagram
