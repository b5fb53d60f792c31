import TreeDiagram.Stylesheet
import TreeDiagram.Proofs.Property.Meaning
import TreeDiagram.Proofs.Text.Bytes
/-!
# Loaded stylesheets

A text is loaded if each of its defaults is an integer or a string that is a value of its property,
and otherwise the first default that is not, in the order of the bytes of their names, is reported.
The defaults of a stylesheet that was loaded obey the rules of their properties.
-/

namespace TreeDiagram

namespace Stylesheet

/-- The defaults of the sheet come from a text, or there are none. -/
def Loaded (sheet : Stylesheet) : Prop :=
  sheet.defaults = [] ∨
    ∃ text loaded, parse text = .ok loaded ∧ sheet.defaults = loaded.defaults

/-- The raw text that a value of a document gives: an integer in decimal, or a string. -/
inductive Gives : Toml.Value → String → Prop
  | integer (n : Int) : Gives (.integer n) (toString n)
  | string (text : String) : Gives (.string text) text

/-- An entry gives a default. -/
def Accepts (entry : String × Toml.Value) (d : Property × Value) : Prop :=
  ∃ raw, Gives entry.2 raw ∧ Property.validateNamed entry.1 raw = .ok d

/-- An entry is at fault: it gives no raw text, or one that is no value of its property. -/
inductive Rejects (entry : String × Toml.Value) : StylesheetError → Prop
  | unsupported (neither : ∀ raw, ¬Gives entry.2 raw) : Rejects entry (.unsupportedValue entry.1)
  | invalid {raw : String} {reason : PropertyError} (gives : Gives entry.2 raw)
      (refused : Property.validateNamed entry.1 raw = .error reason) :
      Rejects entry (.invalidDefault entry.1 reason)

/-- Of two entries the first one does not have the greater name, byte by byte. -/
def InOrder (entry later : String × Toml.Value) : Prop :=
  bytes entry.1 ≤ bytes later.1

variable {entry : String × Toml.Value} {d : Property × Value} {e : StylesheetError}

theorem rawDefault?_eq_some_iff {v : Toml.Value} {raw : String} :
    rawDefault? v = some raw ↔ Gives v raw := by
  constructor
  · intro found
    unfold rawDefault? at found
    split at found
    · cases found
      exact .integer _
    · cases found
      exact .string _
    · cases found
  · intro gives
    cases gives <;> rfl

theorem readDefault_eq_ok_iff : readDefault entry = .ok d ↔ Accepts entry d := by
  unfold readDefault Accepts
  simp only [← rawDefault?_eq_some_iff]
  cases rawDefault? entry.2 with
  | none => simp
  | some raw => simp [mapError_eq_ok]

theorem readDefault_eq_error_iff : readDefault entry = .error e ↔ Rejects entry e := by
  constructor
  · intro failed
    unfold readDefault at failed
    split at failed
    · next none =>
      cases failed
      refine .unsupported fun raw gives => ?_
      rw [rawDefault?_eq_some_iff.mpr gives] at none
      cases none
    · next raw found =>
      obtain ⟨reason, refused, rfl⟩ := mapError_eq_error.mp failed
      exact .invalid (rawDefault?_eq_some_iff.mp found) refused
  · intro rejected
    unfold readDefault
    cases rejected with
    | unsupported neither =>
      cases found : rawDefault? entry.2 with
      | none => rfl
      | some raw => exact absurd (rawDefault?_eq_some_iff.mp found) (neither raw)
    | invalid gives refused =>
      simp only [rawDefault?_eq_some_iff.mpr gives, refused]
      rfl

/-- No entry is both accepted and rejected. -/
theorem Accepts.not_rejects (accepted : Accepts entry d) : ¬Rejects entry e := by
  intro rejected
  have read := readDefault_eq_ok_iff.mpr accepted
  rw [readDefault_eq_error_iff.mpr rejected] at read
  cases read

theorem Accepts.validated (accepted : Accepts entry d) :
    d.1.name = entry.1 ∧ d.1.rule.Admits d.2 := by
  obtain ⟨raw, -, valid⟩ := accepted
  unfold Property.validateNamed at valid
  split at valid
  · cases valid
  · next p found =>
    obtain ⟨v, means, rfl⟩ := map_eq_ok.mp valid
    have named := List.find?_some found
    exact ⟨eq_of_beq named, Rule.admits_of_validate means⟩

section Entries

variable {entries : List (String × Toml.Value)} {defaults : List (Property × Value)}

theorem exists_sorted (entries : List (String × Toml.Value)) :
    ∃ sorted : List (String × Toml.Value),
      readDefaults entries = sorted.mapM readDefault ∧ sorted.Perm entries ∧
      sorted.Pairwise InOrder := by
  refine ⟨_, rfl, List.mergeSort_perm _ _, ?_⟩
  refine List.Pairwise.imp ?_ (List.pairwise_mergeSort ?_ ?_ entries)
  · intro a b ordered
    exact bytes_le_iff.mpr (of_decide_eq_true ordered)
  · intro a b c ab bc
    rw [decide_eq_true_eq] at ab bc ⊢
    exact String.le_trans ab bc
  · intro a b
    rw [Bool.or_eq_true, decide_eq_true_eq, decide_eq_true_eq]
    exact String.le_total a.1 b.1

/-- The defaults that are read are those of the entries, in the order of their names. -/
theorem exists_entries_of_readDefaults (read : readDefaults entries = .ok defaults) :
    ∃ sorted, sorted.Perm entries ∧ sorted.Pairwise InOrder ∧
      List.Forall₂ Accepts sorted defaults := by
  obtain ⟨sorted, same, perm, order⟩ := exists_sorted entries
  rw [same] at read
  refine ⟨sorted, perm, order, (mapM_eq_ok.mp read).imp ?_⟩
  intro entry d done
  exact readDefault_eq_ok_iff.mp done

/-- Of the entries at fault that with the least name is reported. -/
theorem exists_entry_of_readDefaults (failed : readDefaults entries = .error e) :
    ∃ entry ∈ entries, Rejects entry e ∧
      ∀ other ∈ entries, (∃ e', Rejects other e') → InOrder entry other := by
  obtain ⟨sorted, same, perm, order⟩ := exists_sorted entries
  rw [same] at failed
  obtain ⟨before, entry, after, rfl, rejected, passed⟩ := exists_of_mapM_eq_error failed
  refine ⟨entry, perm.mem_iff.mp (by simp), readDefault_eq_error_iff.mp rejected, ?_⟩
  rintro other member ⟨e', fault⟩
  rcases List.mem_append.mp (perm.mem_iff.mpr member) with front | back
  · obtain ⟨d, done⟩ := passed other front
    exact absurd fault (readDefault_eq_ok_iff.mp done).not_rejects
  · rcases List.mem_cons.mp back with rfl | behind
    · exact List.le_refl _
    · exact List.rel_of_pairwise_cons (List.pairwise_append.mp order).2.1 behind

/-- The defaults are read if every entry gives one. -/
theorem exists_readDefaults_iff :
    (∃ defaults, readDefaults entries = .ok defaults) ↔
      ∀ entry ∈ entries, ∃ d, Accepts entry d := by
  constructor
  · rintro ⟨defaults, read⟩ entry member
    obtain ⟨sorted, perm, -, accepted⟩ := exists_entries_of_readDefaults read
    obtain ⟨d, -, accepts⟩ := exists_left_of_forall₂ accepted.flip entry (perm.mem_iff.mpr member)
    exact ⟨d, accepts⟩
  · intro accepted
    cases read : readDefaults entries with
    | ok defaults => exact ⟨defaults, rfl⟩
    | error e =>
      obtain ⟨entry, member, rejected, -⟩ := exists_entry_of_readDefaults read
      obtain ⟨d, accepted⟩ := accepted entry member
      exact absurd rejected accepted.not_rejects

end Entries

theorem Loaded.admits {sheet : Stylesheet} (loaded : sheet.Loaded) :
    ∀ d ∈ sheet.defaults, d.1.rule.Admits d.2 := by
  rcases loaded with none | ⟨text, read, parsed, same⟩
  · simp [none]
  · rw [same]
    unfold parse at parsed
    split at parsed
    · cases parsed
    · next parts _ =>
      obtain ⟨defaults, read, rfl⟩ := map_eq_ok.mp parsed
      obtain ⟨sorted, -, -, accepted⟩ := exists_entries_of_readDefaults read
      intro d member
      obtain ⟨entry, -, accepts⟩ := exists_left_of_forall₂ accepted d member
      exact accepts.validated.2

end Stylesheet

end TreeDiagram
