import TreeDiagram.Proofs.Document
import TreeDiagram.Proofs.Property.Line
import TreeDiagram.Proofs.Property.Resolver
import TreeDiagram.Proofs.Property.Table
/-!
# What lines have set

After any number of accepted lines the table of properties holds, for each node, the last values
that were assigned to its base properties, and the style of the whole diagram has the last values
that were assigned to it. What a sheet gives counts where nothing was assigned.
-/

namespace TreeDiagram

namespace Styling

/-- What is set is what the assignments say that were made over the defaults given. -/
structure Reflects (given : List (Property × Value)) (made : List (Target × Value))
    (s : Styling) : Prop where
  own : ∀ k p, s.table.value? k p.index =
    if p.scope = .base then lastValue? made (.node k, p) else none
  whole : ∀ p, s.cascade.overrides.get p =
    ((lastValue? made (.global, p)).or (lastValue? given p)).getD (({} : Style).get p)

variable {given : List (Property × Value)} {made : List (Target × Value)} {s next : Styling}

theorem lastValue?_scoped (scope scope' : LineScope) (pairs : List Assignment) (p : Property) :
    lastValue? (pairs.map fun a => ((scope, a.property), a.value)) (scope', p) =
      if scope = scope' then lastValue? (pairs.map Assignment.pair) p else none := by
  have targets : (pairs.map fun a => (((scope, a.property), a.value) : Target × Value)) =
      (pairs.map Assignment.pair).map fun pair => ((scope, pair.1), pair.2) := by
    rw [List.map_map]
    rfl
  by_cases same : scope = scope'
  · subst same
    rw [if_pos rfl, targets]
    refine lastValue?_map (fun q => (scope, q)) fun pair _ equal => ?_
    exact (Prod.mk.inj equal).2
  · rw [if_neg same]
    refine lastValue?_eq_none fun v member => ?_
    obtain ⟨a, -, equal⟩ := List.mem_map.mp member
    cases equal
    exact same rfl

/-- What a line for a node stores are its assignments to base properties. -/
theorem lastValue?_entries (pairs : List Assignment) (p : Property) :
    lastValue? ((pairs.filter fun a => !a.isIgnored).map Assignment.entry) p.index =
      if p.scope = .base then lastValue? (pairs.map Assignment.pair) p else none := by
  have stored : (pairs.filter fun a => !a.isIgnored).map Assignment.entry =
      ((pairs.map Assignment.pair).filter fun pair => pair.1.scope == .base).map
        fun pair => (pair.1.index, pair.2) := by
    rw [List.filter_map, List.map_map, Assignment.not_isIgnored_eq]
    rfl
  rw [stored, lastValue?_map Property.index fun pair _ same => Property.index_inj.mp same]
  have kept := lastValue?_filter (fun q : Property => q.scope == .base)
    (pairs.map Assignment.pair) p
  simpa only [beq_iff_eq] using kept

/-- The pairs of a line that count for a single node, as they are stored. -/
def storedEntries (pairs : List Assignment) : List Entry :=
  (pairs.filter fun a => a.property.scope = .base).map Assignment.entry

theorem map_entry_ofPairs_node (id : NodeId) (pairs : List Assignment) :
    (ScannedLine.ofPairs (.node id) pairs).assignments.map Assignment.entry =
      storedEntries pairs := by
  rw [ScannedLine.ofPairs_node, storedEntries]

theorem commit_node_eq (s : Styling) (length : Nat) (id : NodeId) (pairs : List Assignment) :
    s.commit length (ScannedLine.ofPairs (.node id) pairs) =
      if (storedEntries pairs).isEmpty then .ok s
      else
        match s.table.merge id (storedEntries pairs) with
        | .ok table => .ok { s with table }
        | .error e => .error ⟨.ofStore e, ⟨0, length⟩⟩ := by
  rw [← map_entry_ofPairs_node id, List.isEmpty_map]
  rfl

theorem commit_global {length : Nat} {line : ScannedLine} (scope : line.scope = .global)
    (done : s.commit length line = .ok next) : next.table = s.table ∧
      next.cascade.overrides =
        s.cascade.overrides.setAll (line.assignments.map Assignment.pair) := by
  simp only [commit, scope] at done
  cases done
  exact ⟨rfl, s.cascade.overrides_setAllGlobal _⟩

theorem commit_node {length : Nat} {line : ScannedLine} {id : NodeId}
    (scope : line.scope = .node id) (done : s.commit length line = .ok next) :
    next.cascade = s.cascade ∧ ∀ k i, next.table.value? k i =
      (if k = id then lastValue? (line.assignments.map Assignment.entry) i else none).or
        (s.table.value? k i) := by
  simp only [commit, scope] at done
  split at done
  · next nothing =>
    cases done
    rw [List.isEmpty_iff] at nothing
    simp [nothing]
  · split at done
    · next table merged =>
      cases done
      exact ⟨rfl, fun k i => PropertyTable.value?_of_merge merged k i⟩
    · cases done

/-- One more accepted line is reflected as well. -/
theorem Reflects.commit (h : Reflects given made s) {length : Nat} {scope : LineScope}
    {pairs : List Assignment} (takes : ∀ a ∈ pairs, a.property.rule.Takes a.value)
    (done : s.commit length (ScannedLine.ofPairs scope pairs) = .ok next) :
    Reflects given (made ++ pairs.map fun a => ((scope, a.property), a.value)) next := by
  cases scope with
  | global =>
    obtain ⟨table, overrides⟩ := commit_global rfl done
    constructor
    · intro k p
      rw [table, h.own, lastValue?_append, lastValue?_scoped]
      simp
    · intro p
      have takes' : ∀ pair ∈ pairs.map Assignment.pair, pair.1.rule.Takes pair.2 := by
        intro pair member
        obtain ⟨a, inLine, rfl⟩ := List.mem_map.mp member
        exact takes a inLine
      simp only [ScannedLine.ofPairs] at overrides
      rw [overrides, Style.get_setAll _ takes', h.whole, lastValue?_append, lastValue?_scoped,
        if_pos rfl]
      cases lastValue? (pairs.map Assignment.pair) p <;> rfl
  | node id =>
    obtain ⟨cascade, table⟩ := commit_node rfl done
    simp only [ScannedLine.ofPairs] at table
    constructor
    · intro k p
      rw [table, h.own, lastValue?_entries, lastValue?_append, lastValue?_scoped]
      by_cases base : p.scope = .base
      · by_cases here : k = id
        · simp [base, here]
        · simp [base, here, Ne.symm here]
      · simp [base]
    · intro p
      rw [cascade, h.whole, lastValue?_append, lastValue?_scoped]
      simp

theorem Reflects.accepted (h : Reflects given made s) {line : List Char} {scanned : ScannedLine}
    {length : Nat} (accepted : scanLine line = .ok scanned)
    (taken : s.commit length scanned = .ok next) :
    Reflects given (made ++ assignmentsOf line) next := by
  obtain ⟨scope, pairs, said, rfl⟩ := scanLine_eq_ok_iff.mp accepted
  rw [assignmentsOf_eq said]
  refine h.commit (fun a member => ?_) taken
  exact Rule.takes_of_admits (said.admits a member)

theorem reflects_given (takes : ∀ d ∈ given, d.1.rule.Takes d.2) (capacity : Nat) :
    Reflects given []
      { table := .ofCapacity capacity, cascade := Cascade.setAllGlobal {} given } where
  own k p := by
    simp [PropertyTable.value?, PropertyTable.get?, PropertyTable.ofCapacity]
  whole p := by
    rw [Cascade.overrides_setAllGlobal, Style.get_setAll _ takes]
    rfl

end Styling

namespace Document

variable {K : Type}

theorem reflects_of_readProperties {given : List (Property × Value)} {made : List (Target × Value)}
    {lines : List SourceLine} {d last : Document K} (h : d.styling.Reflects given made)
    (done : lines.foldlM readProperties d = .ok last) :
    last.styling.Reflects given (made ++ lines.flatMap fun line => assignmentsOf line.text) := by
  induction lines generalizing d made with
  | nil =>
    cases done
    simpa using h
  | cons line later ih =>
    rw [List.foldlM_cons] at done
    obtain ⟨next, first, done⟩ := bind_eq_ok.mp done
    obtain ⟨scanned, after, accepted, taken, rfl⟩ := readProperties_eq_ok.mp first
    have rest := ih (h.accepted accepted taken) done
    rw [List.append_assoc] at rest
    exact rest

/-- The assignments that the property lines of an input make, in their order. -/
def assignmentsIn (source : String) : List (Target × Value) :=
  (significantLines source.toList).tail.flatMap fun line => assignmentsOf line.text

theorem reflects_of_read [Scalar K] {given : List (Property × Value)} {styling : Styling}
    {source : String} {d : Document K} (h : styling.Reflects given [])
    (done : read styling source = .ok d) : d.styling.Reflects given (assignmentsIn source) := by
  obtain ⟨first, later, description, lines, done⟩ := read_eq_ok done
  rw [assignmentsIn, lines]
  exact reflects_of_readProperties h done

end Document

end TreeDiagram
