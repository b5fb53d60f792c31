import TreeDiagram.Drawing.Paint
/-!
# Texts without markup

A bracket begins or ends a tag, a quotation mark begins or ends the value of an attribute. A text
with none of them stays what it is inside a value. Such are numbers, colors, dash patterns, and any
text at all once it is escaped.
-/

namespace TreeDiagram

/-- Whether a character begins or ends a tag or a value. -/
def isMarkup (c : Char) : Bool :=
  c == '<' || c == '>' || c == '"'

/-- A text without markup. -/
def Inert (cs : List Char) : Prop :=
  ∀ c ∈ cs, isMarkup c = false

instance (cs : List Char) : Decidable (Inert cs) :=
  List.decidableBAll (fun c => isMarkup c = false) cs

variable {cs : List Char}

theorem inert_append {before behind : List Char} :
    Inert (before ++ behind) ↔ Inert before ∧ Inert behind :=
  List.forall_mem_append

theorem inert_cons {c : Char} : Inert (c :: cs) ↔ isMarkup c = false ∧ Inert cs :=
  List.forall_mem_cons

theorem Inert.ne_opening (inert : Inert cs) : ∀ c ∈ cs, c ≠ '<' := by
  rintro c member rfl
  exact absurd (inert _ member) (by decide)

theorem Inert.ne_closing (inert : Inert cs) : ∀ c ∈ cs, c ≠ '>' := by
  rintro c member rfl
  exact absurd (inert _ member) (by decide)

theorem Inert.ne_quote (inert : Inert cs) : ∀ c ∈ cs, c ≠ '"' := by
  rintro c member rfl
  exact absurd (inert _ member) (by decide)

theorem inert_escapeChar (c : Char) : Inert (escapeChar c) := by
  unfold escapeChar
  split <;> try decide
  · next ampersand opening closing quote apostrophe =>
    intro d member
    rw [List.mem_singleton] at member
    subst member
    simp only [isMarkup, Bool.or_eq_false_iff, beq_eq_false_iff_ne]
    exact ⟨⟨opening, closing⟩, quote⟩

/-- Whatever a text contains, nothing of it is markup once it is escaped. -/
theorem inert_escape (s : String) : Inert (escape s).toList := by
  intro c member
  rw [escape, String.toList_ofList] at member
  obtain ⟨d, -, inEscape⟩ := List.mem_flatMap.mp member
  exact inert_escapeChar d c inEscape

theorem isMarkup_digitChar {d : Nat} (digit : d < 16) : isMarkup d.digitChar = false := by
  have each : ∀ d < 16, isMarkup (Nat.digitChar d) = false := by decide
  exact each d digit

theorem inert_toDigits {base : Nat} (valid : 1 < base ∧ base ≤ 16) (n : Nat) :
    Inert (Nat.toDigits base n) := by
  induction n using Nat.strongRecOn with
  | _ n ih =>
    rw [Nat.toDigits_eq_if valid.1]
    split
    · next small =>
      have digit : n < 16 := by omega
      exact inert_cons.mpr ⟨isMarkup_digitChar digit, by decide⟩
    · next large =>
      have positive : 0 < n := by omega
      have digit : n % base < 16 := Nat.lt_of_lt_of_le (Nat.mod_lt n (by omega)) valid.2
      have before := ih (n / base) (Nat.div_lt_self positive valid.1)
      exact inert_append.mpr ⟨before, inert_cons.mpr ⟨isMarkup_digitChar digit, by decide⟩⟩

theorem inert_toString (n : Nat) : Inert (toString n).toList := by
  change Inert (String.ofList (Nat.toDigits 10 n)).toList
  rw [String.toList_ofList]
  exact inert_toDigits (by decide) n

theorem inert_zeros (n : Nat) : Inert (List.replicate n '0') := by
  intro c member
  rw [List.eq_of_mem_replicate member]
  rfl

theorem Decimal.inert_padded (width n : Nat) : Inert (padded width n) :=
  inert_append.mpr ⟨inert_zeros _, inert_toDigits (by decide) n⟩

theorem Decimal.inert_signText (negative : Bool) : Inert (signText negative).toList := by
  cases negative <;> decide

theorem inert_hundredthsText (negative : Bool) (n : Nat) :
    Inert (hundredthsText negative n).toList := by
  unfold hundredthsText
  rw [String.toList_append, String.toList_ofList, inert_append, inert_append]
  refine ⟨Decimal.inert_signText _, inert_toDigits (by decide) _, ?_⟩
  split
  · decide
  · split
    · exact inert_cons.mpr ⟨rfl, inert_toDigits (by decide) _⟩
    · exact inert_cons.mpr ⟨rfl, Decimal.inert_padded _ _⟩

theorem inert_coordinateText (x : Float) : Inert (coordinateText x).toList := by
  unfold coordinateText
  split
  · exact inert_hundredthsText _ _
  · rw [Decimal.infiniteText, String.toList_append, inert_append]
    exact ⟨Decimal.inert_signText _, by decide⟩
  · decide

theorem Color.inert_hex (c : Color) : Inert c.hex.toList := by
  unfold hex
  rw [String.toList_ofList, inert_cons, inert_append]
  exact ⟨rfl, inert_zeros _, inert_toDigits (by decide) _⟩

theorem inert_intercalate {separator : List Char} (inert : Inert separator)
    {parts : List (List Char)} (each : ∀ part ∈ parts, Inert part) :
    Inert (separator.intercalate parts) := by
  induction parts with
  | nil => exact fun c member => by cases member
  | cons part later ih =>
    obtain ⟨first, others⟩ := List.forall_mem_cons.mp each
    by_cases last : later = []
    · rw [last, List.intercalate_singleton]
      exact first
    · rw [List.intercalate_cons_of_ne_nil last, inert_append, inert_append]
      exact ⟨⟨first, inert⟩, ih others⟩

theorem Dash.inert_lengths (d : Dash) :
    Inert (" ".intercalate (d.lengths.map fun n => toString n)).toList := by
  rw [String.toList_intercalate, List.map_map]
  apply inert_intercalate (by decide)
  intro part member
  obtain ⟨n, -, rfl⟩ := List.mem_map.mp member
  exact inert_toString n

end TreeDiagram
