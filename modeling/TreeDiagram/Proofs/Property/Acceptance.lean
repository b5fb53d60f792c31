import TreeDiagram.Proofs.Property.Scanning
/-!
# The accepted property lines

A line is accepted exactly if it is one of the grammar, and what is handed on is what the line
says: every pair in its order, those that a single node does not take as warnings.
-/

namespace TreeDiagram

namespace Line

/-! ## The number of a node -/

theorem denotes_decimal {digits : List Char} (notEmpty : digits ≠ [])
    (all : ∀ c ∈ digits, isDigit c = true) :
    Numeral.Denotes digits (Numeral.value .decimal digits) := by
  rw [Numeral.value_eq_ofDigits]
  exact .decimal notEmpty all

/-- Without a mark a numeral has one value only. -/
theorem eq_value_of_denotes {digits : List Char} {n : Nat} (denotes : Numeral.Denotes digits n)
    (all : ∀ c ∈ digits, isDigit c = true) : n = Numeral.value .decimal digits := by
  cases denotes with
  | decimal =>
    rw [Numeral.value_eq_ofDigits]
    rfl
  | @hexadecimal mark _ marked =>
    have digit := all mark (by simp)
    rcases marked with rfl | rfl <;> exact absurd digit (by decide)

theorem scanScope_sound {c next : Cursor} {scope : LineScope}
    (h : scanScope c = .ok (scope, next)) :
    (∃ id digits, scope = .node id ∧ c.Passes digits next ∧ NodeText id digits next.rest) ∨
      scope = .global ∧ next = c := by
  unfold scanScope at h
  split at h
  · cases h
  · next x rest whole =>
    split at h
    · next digit =>
      obtain ⟨⟨digits, behind⟩, taken, h⟩ := bind_eq_ok.mp h
      dsimp only at h
      split at h
      · next named =>
        cases h
        obtain ⟨passed, run, short⟩ := takeRun_spec taken
        have notEmpty : digits ≠ [] := by
          rintro rfl
          have first : next.rest.head? = some x := by rw [← List.nil_append next.rest,
            ← passed.rest, whole, List.head?_cons]
          rw [run.ends x first] at digit
          cases digit
        have node : NodeText _ digits next.rest :=
          ⟨notEmpty, run, short, denotes_decimal notEmpty run.inside, named⟩
        exact .inl ⟨_, digits, rfl, passed, node⟩
      · cases h
    · split at h
      · cases h
        exact .inr ⟨rfl, rfl⟩
      · cases h

theorem scanScope_of_nodeText {id : NodeId} {digits behind : List Char}
    (node : NodeText id digits behind) (pos : Nat) :
    scanScope ⟨pos, digits ++ behind⟩ = .ok (.node id, ⟨pos + byteLength digits, behind⟩) := by
  have taken := takeRun_of_isRun node.run node.short pos
  have value := eq_value_of_denotes node.denotes node.run.inside
  obtain ⟨first, more, rfl⟩ := List.exists_cons_of_ne_nil node.notEmpty
  have digit := node.run.inside first List.mem_cons_self
  have named := node.named
  rw [value] at named ⊢
  rw [List.cons_append] at taken ⊢
  simp only [scanScope, digit, if_true, taken, bind, Except.bind]
  rw [if_pos named]

/-! ## The end of a line -/

theorem tailText_of_scanTail {c : Cursor} (h : scanTail c = .ok ()) : TailText c.rest := by
  obtain ⟨gap, isGap, passed⟩ := c.passes_skipSeparator
  rw [passed.rest]
  unfold scanTail at h
  dsimp only at h
  split at h
  · next nothing =>
    rw [nothing, List.append_nil]
    exact .nothing isGap
  · next mark text whole =>
    split at h
    · next isMark =>
      rw [whole]
      exact .comment isGap isMark
    · cases h

theorem scanTail_of_tailText {text : List Char} (tail : TailText text) (pos : Nat) :
    scanTail ⟨pos, text⟩ = .ok () := by
  unfold scanTail
  cases tail with
  | nothing isGap =>
    have skipped : Cursor.skipSeparator ⟨pos, text ++ []⟩ =
        Cursor.skipBlanks ⟨pos + byteLength text, []⟩ := by
      apply Cursor.skipSeparator_append isGap
      intro x first
      cases first
    rw [List.append_nil] at skipped
    rw [skipped]
    rfl
  | @comment gap text mark isGap isMark =>
    have visible : isBlank mark = false := by
      rcases isMark with rfl | rfl <;> rfl
    have skipped : Cursor.skipSeparator ⟨pos, gap ++ mark :: text⟩ =
        ⟨pos + byteLength gap, mark :: text⟩ := by
      rw [Cursor.skipSeparator_append isGap, Cursor.skipBlanks_of_head]
      · intro x first
        cases first
        exact visible
      · intro x first
        simp only [List.dropWhile_cons, visible] at first
        cases first
        rcases isMark with rfl | rfl <;> decide
    rw [skipped]
    exact if_pos isMark

/-! ## Lines -/

theorem scanBody_sound {scope : LineScope} {c : Cursor} {pairs : List Assignment}
    (h : scanBody scope c = (pairs, .ok ())) : ∃ blanks, Blanks blanks ∧
      (scope ≠ .global ∧ pairs = [] ∧ c.rest = blanks ∨
        ∃ text tail, c.rest = blanks ++ '[' :: text ∧
          PairsText (c.pos + byteLength blanks + 1) pairs text tail ∧ TailText tail) := by
  obtain ⟨blanks, blank, passed⟩ := c.passes_skipBlanks
  refine ⟨blanks, blank, ?_⟩
  unfold scanBody at h
  dsimp only at h
  split at h
  · next alone =>
    cases h
    have nothing : c.skipBlanks.rest = [] := List.isEmpty_iff.mp alone.2
    rw [passed.rest, nothing, List.append_nil]
    exact .inl ⟨alone.1, rfl, rfl⟩
  · split at h
    · cases h
    · next opened bracket =>
      obtain ⟨rfl, ending⟩ := Prod.mk.inj h
      obtain ⟨closed, ended, tail⟩ := bind_eq_ok.mp ending
      obtain ⟨inside, -⟩ := scanPairs_sound ended
      have across := passed.trans (Cursor.passes_eat? bracket)
      refine .inr ⟨opened.rest, closed.rest, ?_, ?_, tailText_of_scanTail tail⟩
      · rw [across.rest, List.append_assoc, List.singleton_append]
      · rw [across.pos, byteLength_append] at inside
        exact inside

theorem scanBody_of_pairsText {pairs : List Assignment} {blanks text tail : List Char} {pos : Nat}
    (scope : LineScope) (blank : Blanks blanks)
    (inside : PairsText (pos + byteLength blanks + 1) pairs text tail) (ends : TailText tail) :
    scanBody scope ⟨pos, blanks ++ '[' :: text⟩ = (pairs, .ok ()) := by
  have bracket : Cursor.skipBlanks ⟨pos, blanks ++ '[' :: text⟩ =
      ⟨pos + byteLength blanks, '[' :: text⟩ := by
    rw [Cursor.skipBlanks_append blank, Cursor.skipBlanks_of_head]
    intro x first
    cases first
    rfl
  have opened := Cursor.eat?_cons '[' (pos + byteLength blanks) text
  obtain ⟨stop, scanned⟩ := scanPairs_of_pairsText inside ⟨pos + byteLength blanks + 1, text⟩ rfl
  have one : '['.utf8Size = 1 := rfl
  rw [one] at opened
  simp only [scanBody, bracket, opened, scanned, Except.bind, scanTail_of_tailText ends]
  rw [if_neg]
  rintro ⟨-, atEnd⟩
  cases atEnd

theorem lineText_of_scanAll {line : List Char} {scope : LineScope} {pairs : List Assignment}
    (h : scanAll line = .ok (scope, pairs, .ok ())) : LineText scope pairs line := by
  obtain ⟨⟨scope', c⟩, start, same⟩ := map_eq_ok.mp h
  obtain ⟨rfl, body⟩ := Prod.mk.inj same
  obtain ⟨blanks, blank, front⟩ := (Cursor.start line).passes_skipBlanks
  obtain ⟨blanks', blank', rest⟩ := scanBody_sound body
  have whole : line = blanks ++ (Cursor.start line).skipBlanks.rest := front.rest
  have place : (Cursor.start line).skipBlanks.pos = 0 + byteLength blanks := front.pos
  rw [Nat.zero_add] at place
  rw [whole]
  rcases scanScope_sound start with ⟨id, digits, rfl, passed, node⟩ | ⟨rfl, rfl⟩
  · rw [passed.rest]
    rcases rest with ⟨-, rfl, nothing⟩ | ⟨text, tail, text_eq, inside, ends⟩
    · rw [nothing] at node ⊢
      exact .number blank node blank'
    · rw [text_eq] at node ⊢
      rw [passed.pos, place] at inside
      refine .node blank node blank' ?_ ends
      simpa only [byteLength_append, Nat.add_assoc] using inside
  · rcases rest with ⟨other, -⟩ | ⟨text, tail, text_eq, inside, ends⟩
    · exact absurd rfl other
    · rw [text_eq, ← List.append_assoc]
      rw [place, ← byteLength_append] at inside
      exact .whole (blank.append blank') inside ends

theorem scanAll_of_lineText {line : List Char} {scope : LineScope} {pairs : List Assignment}
    (h : LineText scope pairs line) : scanAll line = .ok (scope, pairs, .ok ()) := by
  have start : ∀ {blanks rest : List Char}, Blanks blanks →
      (∀ x, rest.head? = some x → isBlank x = false) →
      (Cursor.start (blanks ++ rest)).skipBlanks = ⟨byteLength blanks, rest⟩ := by
    intro blanks rest blank visible
    rw [Cursor.start, Cursor.skipBlanks_append blank, Cursor.skipBlanks_of_head visible,
      Nat.zero_add]
  have visible : ∀ {id : NodeId} {digits behind : List Char}, NodeText id digits behind →
      ∀ x, (digits ++ behind).head? = some x → isBlank x = false := by
    intro id digits behind node x first
    obtain ⟨d, more, rfl⟩ := List.exists_cons_of_ne_nil node.notEmpty
    cases first
    exact isBlank_of_isAlphanumeric (isAlphanumeric_of_isDigit
      (node.run.inside x List.mem_cons_self))
  cases h with
  | @number id blanks digits blanks' blank node blank' =>
    rw [scanAll, start blank (visible node), scanScope_of_nodeText node]
    have nothing := Cursor.skipBlanks_append blank' (byteLength blanks + byteLength digits) []
    rw [List.append_nil] at nothing
    have alone : scanBody (.node id) ⟨byteLength blanks + byteLength digits, blanks'⟩ =
        ([], .ok ()) := by
      rw [scanBody, nothing]
      exact if_pos ⟨by simp, rfl⟩
    simp only [Except.map, alone]
  | @node id pairs blanks digits blanks' text tail blank node blank' inside ends =>
    rw [scanAll, start blank (visible node), scanScope_of_nodeText node]
    rw [byteLength_append, byteLength_append, ← Nat.add_assoc] at inside
    simp only [Except.map, scanBody_of_pairsText _ blank' inside ends]
  | @whole pairs blanks text tail blank inside ends =>
    rw [scanAll, start blank]
    · have body := scanBody_of_pairsText .global blanks_nil
        (show PairsText (byteLength blanks + byteLength [] + 1) pairs text tail from inside) ends
      rw [List.nil_append] at body
      have bracket : scanScope ⟨byteLength blanks, '[' :: text⟩ =
          .ok (.global, ⟨byteLength blanks, '[' :: text⟩) := rfl
      simp only [bracket, Except.map, body]
    · intro x first
      cases first
      rfl

end Line

namespace Assignment

theorem isIgnored_eq : isIgnored = fun a => decide (a.property.scope = .extend) := by
  funext a
  cases scope : a.property.scope <;> simp [isIgnored, scope]

theorem not_isIgnored_eq :
    (fun a : Assignment => !a.isIgnored) = fun a => decide (a.property.scope = .base) := by
  funext a
  cases scope : a.property.scope <;> simp [isIgnored, scope]

end Assignment

/-- What a line for a node assigns and what it warns of, by the scopes of the properties. -/
theorem ScannedLine.ofPairs_node (id : NodeId) (pairs : List Assignment) :
    ofPairs (.node id) pairs =
      ⟨.node id, pairs.filter (fun a => a.property.scope = .base),
        (pairs.filter fun a => a.property.scope = .extend).map
          fun a => ⟨a.span, id, a.property⟩⟩ := by
  rw [ofPairs, Assignment.not_isIgnored_eq, Assignment.isIgnored_eq]

theorem scanLine_eq_ok_iff {line : List Char} {scanned : ScannedLine} :
    scanLine line = .ok scanned ↔ ∃ scope pairs,
      Line.LineText scope pairs line ∧ scanned = ScannedLine.ofPairs scope pairs := by
  constructor
  · intro accepted
    obtain ⟨⟨scope, pairs, ending⟩, all, accepted⟩ := bind_eq_ok.mp accepted
    obtain ⟨_, ended, accepted⟩ := bind_eq_ok.mp accepted
    cases accepted
    rw [ended] at all
    exact ⟨scope, pairs, Line.lineText_of_scanAll all, rfl⟩
  · rintro ⟨scope, pairs, said, rfl⟩
    have all := Line.scanAll_of_lineText said
    simp only [scanLine, all, bind, Except.bind]

/-- A line is accepted exactly if the grammar has it. A line for the whole diagram assigns all of
its pairs in their order; a line for a node assigns those of base scope in their order, and warns of
each of the others. -/
theorem scanLine_accepts_grammar (line : List Char) (scanned : ScannedLine) :
    scanLine line = .ok scanned ↔
      (∃ pairs, Line.LineText .global pairs line ∧ scanned.scope = .global ∧
        scanned.assignments = pairs ∧ scanned.diagnostics = []) ∨
      ∃ id pairs, Line.LineText (.node id) pairs line ∧ scanned.scope = .node id ∧
        scanned.assignments = pairs.filter (fun a => a.property.scope = .base) ∧
        scanned.diagnostics = (pairs.filter fun a => a.property.scope = .extend).map
          fun a => ⟨a.span, id, a.property⟩ := by
  rw [scanLine_eq_ok_iff]
  constructor
  · rintro ⟨scope, pairs, said, rfl⟩
    cases scope with
    | global => exact .inl ⟨pairs, said, rfl, rfl, rfl⟩
    | node id =>
      rw [ScannedLine.ofPairs_node]
      exact .inr ⟨id, pairs, said, rfl, rfl, rfl⟩
  · intro reading
    obtain ⟨scope, assignments, diagnostics⟩ := scanned
    rcases reading with ⟨pairs, said, rfl, rfl, rfl⟩ | ⟨id, pairs, said, rfl, rfl, rfl⟩
    · exact ⟨_, _, said, rfl⟩
    · exact ⟨_, pairs, said, (ScannedLine.ofPairs_node id pairs).symm⟩

end TreeDiagram
