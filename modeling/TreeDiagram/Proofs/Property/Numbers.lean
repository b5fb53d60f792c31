import TreeDiagram.Proofs.Property.Atomicity
import TreeDiagram.Proofs.Text.Digits
/-!
# Numbers are read alike everywhere

The value of a property, the number of a node on a line and the label of a node are read as the
numbers that their digits write, at any length; only the limits differ. So a line is for just the
labels of the same number, and what is cut out of a line as a number is never found to be none.
-/

namespace TreeDiagram

open Numeral

/-! ## Values and labels -/

theorem readUnsigned_eq_ok_iff_spells {raw : String} {n : Nat} :
    readUnsigned raw = .ok n ↔ Spells raw.toList n ∧ n < 2 ^ 32 := by
  rw [readUnsigned_eq_ok_iff, denotes_iff_spells]
  exact and_congr_right fun _ => Nat.lt_succ_iff.symm

theorem readUnsigned_eq_error_iff {raw : String} {e : PropertyError} :
    readUnsigned raw = .error e ↔ (e = .notANumber raw ∧ ∀ n, ¬Spells raw.toList n) ∨
      e = .tooLarge raw ∧ ∃ n, Spells raw.toList n ∧ 2 ^ 32 ≤ n := by
  simp only [← read?_eq_some_iff_spells, readUnsigned]
  cases read? raw.toList with
  | none => simp [eq_comm]
  | some n =>
    simp only [Option.some.injEq, forall_eq', and_false, false_or, exists_eq_left']
    have beyond : 2 ^ 32 ≤ n ↔ ¬n ≤ maxWord := Nat.not_le.symm
    rw [beyond]
    split
    · next fits => simp [fits]
    · next large => simp [large, eq_comm]

theorem nodeOfLabel?_eq_some_iff_readUnsigned {label : String} {n : NodeId} :
    nodeOfLabel? label = some n ↔ readUnsigned label = .ok n ∧ n ≤ maxNodeId := by
  rw [nodeOfLabel?_eq_some_iff, readUnsigned_eq_ok_iff, and_assoc]
  have fits : n ≤ maxNodeId → n ≤ maxWord := fun named => Nat.le_trans named (by decide)
  exact and_congr_right fun _ => ⟨fun named => ⟨fits named, named⟩, And.right⟩

/-- A register that is wide enough for the limit holds every number that is wanted. -/
theorem readIn?_eq_some_iff {bits limit n : Nat} {cs : List Char} (wide : limit < 2 ^ bits) :
    readIn? bits cs = some n ∧ n ≤ limit ↔ Spells cs n ∧ n ≤ limit := by
  rw [readIn?_eq, Option.filter_eq_some_iff, read?_eq_some_iff_spells, decide_eq_true_eq]
  constructor
  · rintro ⟨⟨spells, -⟩, small⟩
    exact ⟨spells, small⟩
  · rintro ⟨spells, small⟩
    exact ⟨⟨spells, Nat.lt_of_le_of_lt small wide⟩, small⟩

/-! ## Lines -/

namespace Line

/-- The digits of a node on a line are read as its number. -/
theorem NodeText.readUnsigned_eq {id : NodeId} {digits behind : List Char}
    (node : NodeText id digits behind) : readUnsigned (String.ofList digits) = .ok id := by
  rw [readUnsigned_eq_ok_iff, String.toList_ofList]
  exact ⟨node.denotes, Nat.le_trans node.named (by decide)⟩

theorem LineText.exists_nodeText {id : NodeId} {pairs : List Assignment} {line : List Char}
    (said : LineText (.node id) pairs line) : ∃ blanks digits behind, Blanks blanks ∧
      line = blanks ++ (digits ++ behind) ∧ NodeText id digits behind := by
  cases said with
  | number blank node => exact ⟨_, _, _, blank, rfl, node⟩
  | node blank node => exact ⟨_, _, _, blank, rfl, node⟩

/-- What is written where a number is asked for spells one. -/
theorem ValueText.exists_spells {min max : Nat} {raw written behind : List Char}
    (value : ValueText (.range min max) raw written behind) : ∃ n, Spells raw n := by
  cases value with
  | decimal notEmpty run =>
    exact ⟨_, .decimal ((writes_iff .decimal).mpr ⟨notEmpty, run.inside, rfl⟩)⟩
  | hexadecimal isMark notEmpty run =>
    exact ⟨_, .hexadecimal isMark ((writes_iff .hexadecimal).mpr ⟨notEmpty, run.inside, rfl⟩)⟩

/-- What is written as a value is refused for its size, never because it is no number. -/
theorem ValueText.validate_ne_notANumber {rule : Rule} {raw written behind : List Char}
    (value : ValueText rule raw written behind) (text : String) :
    rule.validate (String.ofList raw) ≠ .error (.notANumber text) := by
  intro failed
  cases rule with
  | range min max =>
    obtain ⟨n, spells⟩ := value.exists_spells
    rcases bind_eq_error.mp failed with unread | ⟨m, -, refused⟩
    · rcases readUnsigned_eq_error_iff.mp unread with ⟨-, none_⟩ | ⟨other, -⟩
      · rw [String.toList_ofList] at none_
        exact none_ n spells
      · cases other
    · split at refused <;> cases refused
  | length min max =>
    simp only [Rule.validate] at failed
    split at failed <;> cases failed

/-- What is refused as the value of a property stands on the line as such a value. -/
def RefusesWritten (e : ParseError) : Prop :=
  ∀ p raw reason, e.cause = .invalidPropertyValue p raw reason →
    (∃ written behind, ValueText p.rule raw.toList written behind) ∧
      p.validate raw = .error reason

theorem refusesWritten_unexpected (due : LineItem) (c : Cursor) :
    RefusesWritten (unexpected due c) := by
  intro p raw reason cause
  unfold unexpected at cause
  split at cause <;> cases cause

variable {c : Cursor} {e : ParseError}

theorem refusesWritten_of_takeRun {q : Char → Bool} (h : takeRun q c = .error e) :
    RefusesWritten e := by
  intro p raw reason cause
  unfold takeRun at h
  dsimp only at h
  split at h
  · cases h
    cases cause
  · cases h

theorem refusesWritten_of_scanNumber (h : scanNumber c = .error e) : RefusesWritten e := by
  unfold scanNumber at h
  generalize numeralMark c = found at h
  obtain ⟨mark, behindMark⟩ := found
  rcases bind_eq_error.mp h with failed | ⟨⟨digits, next⟩, -, failed⟩
  · exact refusesWritten_of_takeRun failed
  · dsimp only at failed
    split at failed
    · cases failed
      exact refusesWritten_unexpected .number next
    · split at failed
      · cases failed
        intro p raw reason cause
        cases cause
      · cases failed

theorem refusesWritten_of_scanText (h : scanText c = .error e) : RefusesWritten e := by
  unfold scanText at h
  split at h
  · rcases bind_eq_error.mp h with failed | ⟨⟨chars, closing⟩, -, failed⟩
    · exact refusesWritten_of_takeRun failed
    · dsimp only at failed
      split at failed
      · cases failed
      · cases failed
        intro p raw reason cause
        cases cause
  · rcases bind_eq_error.mp h with failed | ⟨⟨chars, next⟩, -, failed⟩
    · exact refusesWritten_of_takeRun failed
    · dsimp only at failed
      split at failed
      · cases failed
        exact refusesWritten_unexpected .value next
      · cases failed

theorem refusesWritten_of_scanPair (h : scanPair c = .error e) : RefusesWritten e := by
  unfold scanPair at h
  rcases bind_eq_error.mp h with failed | ⟨⟨name, behindName⟩, -, failed⟩
  · exact refusesWritten_of_takeRun failed
  · dsimp only at failed
    split at failed
    · cases failed
      exact refusesWritten_unexpected .propertyName behindName
    · split at failed
      · cases failed
        intro p raw reason cause
        cases cause
      · next property named =>
        split at failed
        · cases failed
          exact refusesWritten_unexpected .equals _
        · next behindEquals equals =>
          rcases bind_eq_error.mp failed with refused | ⟨⟨raw, next⟩, value, invalid⟩
          · cases rule : property.rule with
            | range min max =>
              rw [rule] at refused
              exact refusesWritten_of_scanNumber refused
            | length min max =>
              rw [rule] at refused
              exact refusesWritten_of_scanText refused
          · obtain ⟨written, -, text, -, -⟩ := scanValue_sound value
            dsimp only at invalid
            split at invalid
            · next reason why =>
              cases invalid
              intro p raw' reason' cause
              cases cause
              rw [RawValue.text, String.toList_ofList]
              exact ⟨⟨written, next.rest, text⟩, why⟩
            · cases invalid

theorem refusesWritten_of_scanPairs (h : (scanPairs c).2 = .error e) : RefusesWritten e := by
  fun_induction scanPairs c with
  | case1 c e' failed =>
    cases h
    exact refusesWritten_of_scanPair failed
  | case2 => cases h
  | case3 c pair next scanned =>
    cases h
    exact refusesWritten_unexpected .rightBracket _
  | case4 c pair next scanned behind opened inside shorter more ih => exact ih h

theorem refusesWritten_of_scanScope (h : scanScope c = .error e) : RefusesWritten e := by
  unfold scanScope at h
  split at h
  · cases h
    exact refusesWritten_unexpected .scope c
  · split at h
    · rcases bind_eq_error.mp h with failed | ⟨⟨digits, next⟩, -, failed⟩
      · exact refusesWritten_of_takeRun failed
      · dsimp only at failed
        split at failed
        · cases failed
        · cases failed
          intro p raw reason cause
          cases cause
    · split at h
      · cases h
      · cases h
        exact refusesWritten_unexpected .scope c

theorem refusesWritten_of_scanBody {scope : LineScope} (h : (scanBody scope c).2 = .error e) :
    RefusesWritten e := by
  unfold scanBody at h
  dsimp only at h
  split at h
  · cases h
  · split at h
    · cases h
      exact refusesWritten_unexpected .leftBracket _
    · rcases bind_eq_error.mp h with failed | ⟨closed, -, failed⟩
      · exact refusesWritten_of_scanPairs failed
      · unfold scanTail at failed
        dsimp only at failed
        split at failed
        · cases failed
        · split at failed
          · cases failed
          · cases failed
            exact refusesWritten_unexpected .lineEnd _

/-- What a line is refused for as the value of a property is written on it as such a value. -/
theorem refusesWritten_of_scanLine {line : List Char} (h : scanLine line = .error e) :
    RefusesWritten e := by
  rcases bind_eq_error.mp h with failed | ⟨⟨scope, pairs, ending⟩, all, failed⟩
  · exact refusesWritten_of_scanScope (map_eq_error.mp failed)
  · obtain ⟨⟨scope', c⟩, -, same⟩ := map_eq_ok.mp all
    obtain ⟨rfl, body⟩ := Prod.mk.inj same
    rcases bind_eq_error.mp failed with refused | ⟨_, _, impossible⟩
    · have inBody : (scanBody scope' c).2 = .error e := by
        rw [body]
        exact refused
      exact refusesWritten_of_scanBody inBody
    · cases impossible

theorem RefusesWritten.ne_notANumber {p : Property} {raw text : String} {span : Span}
    (refuses : RefusesWritten e) : e ≠ ⟨.invalidPropertyValue p raw (.notANumber text), span⟩ := by
  rintro rfl
  obtain ⟨⟨written, behind, value⟩, failed⟩ := refuses p raw _ rfl
  have other := value.validate_ne_notANumber text
  rw [String.ofList_toList] at other
  exact other failed

end Line

/-! ## Labels and lines -/

namespace Styling

variable {s next : Styling} {line : List Char} {found : List Diagnostic} {id : NodeId}
  {pairs : List Assignment}

theorem changed_of_applyLine (said : Line.LineText (.node id) pairs line)
    (done : s.applyLine line = .ok (next, found)) : Changed s next pairs (.node id) := by
  rcases s.applyInPlace_cases line with
    ⟨e, -, -, failed⟩ | ⟨scope, pairs', said', ⟨-, next', -, applied, changed⟩ | ⟨-, e, -, failed⟩⟩
  · rw [failed] at done
    cases done
  · have same := (Line.scanAll_of_lineText said').symm.trans (Line.scanAll_of_lineText said)
    cases same
    rw [applied] at done
    cases done
    exact changed
  · rw [failed] at done
    cases done

/-- What a line stores is found under every label of the number of its node. -/
theorem exists_findLabel?_of_applyLine (said : Line.LineText (.node id) pairs line)
    (done : s.applyLine line = .ok (next, found)) {label : String}
    (same : readUnsigned label = .ok id) {i : Nat} {v : Value}
    (stored : lastValue? (storedEntries pairs) i = some v) :
    ∃ info, next.table.findLabel? label = some info ∧ info.get? i = some v := by
  have named := nodeOfLabel?_eq_some_iff_readUnsigned.mpr ⟨same, said.named id rfl⟩
  cases changed_of_applyLine said done with
  | own cascade capacity others nothing entry =>
    have some_ : storedEntries pairs ≠ [] := by
      intro none_
      rw [none_] at stored
      cases stored
    obtain ⟨info, held, -, values⟩ := entry some_
    refine ⟨info, ?_, ?_⟩
    · rw [PropertyTable.findLabel?, named, Option.bind_some, held]
    · rw [values, stored, Option.some_or]

/-- Under every other label nothing has changed. -/
theorem findLabel?_of_applyLine (said : Line.LineText (.node id) pairs line)
    (done : s.applyLine line = .ok (next, found)) {label : String}
    (other : readUnsigned label ≠ .ok id) :
    next.table.findLabel? label = s.table.findLabel? label := by
  rw [PropertyTable.findLabel?, PropertyTable.findLabel?]
  cases named : nodeOfLabel? label with
  | none => rfl
  | some k =>
    have elsewhere : k ≠ id := by
      rintro rfl
      exact other (nodeOfLabel?_eq_some_iff_readUnsigned.mp named).1
    cases changed_of_applyLine said done with
    | own cascade capacity others nothing entry => exact others k elsewhere

end Styling

/-- The digits with which a line begins are the number of its node, and the line is for just the
labels of that number: under these what it stores is found, and under the others nothing changes. -/
structure ScannedLine.IsForNumber (scanned : ScannedLine) (line digits : List Char) (id : NodeId) :
    Prop where
  begins : ∃ blanks behind, Blanks blanks ∧ line = blanks ++ (digits ++ behind) ∧
    digits ≠ [] ∧ IsRun isDigit digits behind
  number : readUnsigned (String.ofList digits) = .ok id
  finds : ∀ (s next : Styling) (found : List Diagnostic), s.applyLine line = .ok (next, found) →
    ∀ label, readUnsigned label = readUnsigned (String.ofList digits) →
      ∀ i v, lastValue? (scanned.assignments.map Assignment.entry) i = some v →
        ∃ info, next.table.findLabel? label = some info ∧ info.get? i = some v
  others : ∀ (s next : Styling) (found : List Diagnostic), s.applyLine line = .ok (next, found) →
    ∀ label, readUnsigned label ≠ readUnsigned (String.ofList digits) →
      next.table.findLabel? label = s.table.findLabel? label

theorem exists_isForNumber {line : List Char} {scanned : ScannedLine} {id : NodeId}
    (accepted : scanLine line = .ok scanned) (scope : scanned.scope = .node id) :
    ∃ digits, scanned.IsForNumber line digits id := by
  obtain ⟨scope', pairs, said, rfl⟩ := scanLine_eq_ok_iff.mp accepted
  cases scope' with
  | global => cases scope
  | node id' =>
    cases scope
    obtain ⟨blanks, digits, behind, blank, whole, node⟩ := said.exists_nodeText
    have number := node.readUnsigned_eq
    refine ⟨digits, ⟨blanks, behind, blank, whole, node.notEmpty, node.run⟩, number, ?_, ?_⟩
    · intro s next found done label same i v stored
      rw [Styling.map_entry_ofPairs_node] at stored
      exact Styling.exists_findLabel?_of_applyLine said done (same.trans number) stored
    · intro s next found done label other
      rw [number] at other
      exact Styling.findLabel?_of_applyLine said done other

/-- Every text is read as the number that it spells if that fits in 32 bits; otherwise it is refused
as no number or as one that is too large, whichever it is. A label names the node of the number that
it is read as, unless the number is none of a node. A register of 64 bits would do for both. The
node of a line is the number that its digits are read as, so that the line is for the labels of this
number. Whatever is cut out of a line as a number is one. -/
theorem numbers_read_alike (text : String) (n : Nat) :
    (readUnsigned text = .ok n ↔ Spells text.toList n ∧ n < 2 ^ 32) ∧
      (readUnsigned text = .error (.notANumber text) ↔ ∀ m, ¬Spells text.toList m) ∧
      (readUnsigned text = .error (.tooLarge text) ↔
        ∃ m, Spells text.toList m ∧ 2 ^ 32 ≤ m) ∧
      (∀ e, readUnsigned text = .error e → e = .notANumber text ∨ e = .tooLarge text) ∧
      (nodeOfLabel? text = some n ↔ readUnsigned text = .ok n ∧ n ≤ maxNodeId) ∧
      (readUnsigned text = .ok n ↔ readIn? 64 text.toList = some n ∧ n ≤ maxWord) ∧
      (nodeOfLabel? text = some n ↔ readIn? 64 text.toList = some n ∧ n ≤ maxNodeId) ∧
      (∀ line scanned id, scanLine line = .ok scanned → scanned.scope = .node id →
        ∃ digits, scanned.IsForNumber line digits id) ∧
      (∀ c raw next, Line.scanNumber c = .ok (raw, next) →
        ∀ rule why, Rule.validate raw.text rule ≠ .error (.notANumber why)) ∧
      ∀ line p raw why span,
        scanLine line ≠ .error ⟨.invalidPropertyValue p raw (.notANumber why), span⟩ := by
  refine ⟨readUnsigned_eq_ok_iff_spells, ?_, ?_, ?_, nodeOfLabel?_eq_some_iff_readUnsigned, ?_, ?_,
    fun line scanned id => exists_isForNumber, ?_, ?_⟩
  · rw [readUnsigned_eq_error_iff]
    simp
  · rw [readUnsigned_eq_error_iff]
    simp
  · intro e failed
    exact (readUnsigned_eq_error_iff.mp failed).imp And.left And.left
  · rw [readIn?_eq_some_iff (by decide), ← denotes_iff_spells, readUnsigned_eq_ok_iff]
  · rw [readIn?_eq_some_iff (by decide), ← denotes_iff_spells, nodeOfLabel?_eq_some_iff]
  · intro c raw next scanned rule why
    cases rule with
    | range min max =>
      exact (Line.scanNumber_sound min max scanned).2.1.validate_ne_notANumber why
    | length min max =>
      intro failed
      simp only [Rule.validate] at failed
      split at failed <;> cases failed
  · intro line p raw why span failed
    exact (Line.refusesWritten_of_scanLine failed).ne_notANumber rfl

theorem numbers_read_alike_hexadecimal :
    readUnsigned "0x0010" = .ok 16 ∧ readUnsigned "0x0017" ≠ .ok 16 ∧
      (∃ scanned next found, scanLine "016[FillColor=0x7]".toList = .ok scanned ∧
        scanned.scope = .node 16 ∧
        ({} : Styling).applyLine "016[FillColor=0x7]".toList = .ok (next, found) ∧
        (∃ info, next.table.findLabel? "0x0010" = some info ∧ info.get? 5 = some (.number 7)) ∧
        next.table.findLabel? "0x0017" = none) ∧
      ∃ raw next, Line.scanNumber (Cursor.start "0x7]".toList) = .ok (raw, next) ∧
        Rule.validate raw.text (.range 0 3) ≠ .error (.notANumber raw.text) := by
  have line : (scanLine "016[FillColor=0x7]".toList).toOption.map
      (fun l => (l.scope, l.assignments.map Assignment.entry)) =
        some (.node 16, [(5, .number 7)]) := by decide +kernel
  obtain ⟨scanned, accepted, said⟩ := toOption_map_eq_some.mp line
  obtain ⟨scope, entries⟩ := Prod.mk.inj said
  have taken : (({} : Styling).applyLine "016[FillColor=0x7]".toList).toOption.map
      (fun _ => ()) = some () := by decide +kernel
  obtain ⟨⟨next, found⟩, applied, -⟩ := toOption_map_eq_some.mp taken
  have token : (Line.scanNumber (Cursor.start "0x7]".toList)).toOption.map (fun _ => ()) =
      some () := by decide +kernel
  obtain ⟨⟨raw, behind⟩, cut, -⟩ := toOption_map_eq_some.mp token
  have own : Spells "0x0010".toList 16 := read?_eq_some_iff_spells.mp (by decide +kernel)
  have other : readUnsigned "0x0017" = .ok 23 := by decide +kernel
  obtain ⟨reads, -, -, -, -, -, -, lines, tokens, -⟩ := numbers_read_alike "0x0010" 16
  have sixteen := reads.mpr ⟨own, by decide⟩
  obtain ⟨digits, isFor⟩ := lines _ scanned 16 accepted scope
  have same : readUnsigned "0x0010" = readUnsigned (String.ofList digits) :=
    sixteen.trans isFor.number.symm
  have apart : readUnsigned "0x0017" ≠ readUnsigned (String.ofList digits) := by
    rw [other, isFor.number]
    decide
  refine ⟨sixteen, ?_, ⟨scanned, next, found, accepted, scope, applied, ?_, ?_⟩, raw, behind, cut,
    tokens _ raw behind cut _ _⟩
  · rw [other]
    decide
  · exact isFor.finds {} next found applied "0x0010" same 5 _ (by rw [entries]; rfl)
  · rw [isFor.others {} next found applied "0x0017" apart]
    rfl

end TreeDiagram
