import TreeDiagram.Proofs.Property.Styling
/-!
# Lines that take effect as a whole

A table is changed in place: a node is entered and its properties are set one after the other, and
an error on the way leaves behind what was set until then. No such error comes up once the batch has
been found to fit, so a line that is rejected leaves everything as it was. A line that is accepted
changes nothing but the node it names, or the properties of the whole diagram that it names.
-/

namespace TreeDiagram

namespace NodeProperties

/-- Sets properties one after the other, up to the first that cannot be set. -/
def insertEach (info : NodeProperties) : List Entry → NodeProperties × Except StoreError Unit
  | [] => (info, .ok ())
  | entry :: later =>
    match info.insert entry with
    | .error e => (info, .error e)
    | .ok next => next.insertEach later

theorem insert_of_room {info : NodeProperties} {entry : Entry} {indices : List Nat}
    (listed : entry.1 ∈ indices) (room : info.overflows indices = false) :
    ∃ next, info.insert entry = .ok next ∧ next.node = info.node ∧
      next.places = Insert.insert entry.1 info.places := by
  refine ⟨{ info with values := info.values.insert entry.1 entry.2 }, ?_, rfl, ?_⟩
  · rw [NodeProperties.insert, if_neg]
    rw [overflows_iff, Nat.not_lt]
    have inside : info.places ∪ [entry.1].toFinset ⊆ info.places ∪ indices.toFinset := by
      apply Finset.union_subset_union_right
      simpa using listed
    rw [← Bool.not_eq_true, overflows_iff, Nat.not_lt] at room
    exact (Finset.card_le_card inside).trans room
  · ext i
    rw [mem_places, Finset.mem_insert, mem_places, Std.TreeMap.mem_insert,
      Std.LawfulEqCmp.compare_eq_iff_eq, eq_comm]

/-- A batch that fits is set to its end. -/
theorem insertEach_of_room {info : NodeProperties} {entries : List Entry}
    (room : info.overflows (entries.map Prod.fst) = false) :
    ∃ next, entries.foldlM NodeProperties.insert info = .ok next ∧ next.node = info.node ∧
      info.insertEach entries = (next, .ok ()) := by
  induction entries generalizing info with
  | nil => exact ⟨info, rfl, rfl, rfl⟩
  | cons entry later ih =>
    obtain ⟨middle, first, sameNode, places⟩ := insert_of_room List.mem_cons_self room
    -- the places held and those still to come are together the same as before
    have room' : middle.overflows (later.map Prod.fst) = false := by
      rw [← Bool.not_eq_true, overflows_iff] at room ⊢
      rw [places]
      simpa using room
    obtain ⟨next, rest, sameNode', done⟩ := ih room'
    refine ⟨next, ?_, sameNode'.trans sameNode, ?_⟩
    · rw [List.foldlM_cons, first]
      exact rest
    · rw [insertEach, first]
      exact done

end NodeProperties

namespace PropertyTable

/-- Sets properties of a node in place. -/
def mergeInPlace (table : PropertyTable) (node : NodeId) (entries : List Entry) :
    PropertyTable × Except StoreError Unit :=
  if (table.get? node).isNone ∧ table.capacity ≤ table.size then
    (table, .error (.nodeTableOverflow table.capacity))
  else if (table.before node).overflows (entries.map Prod.fst) then
    (table, .error (.propertySetOverflow node maxPropertiesPerNode))
  else
    let (info, outcome) := (table.before node).insertEach entries
    ({ table with nodes := table.nodes.insert node info }, outcome)

/-- The table has no room for the node, or the node none for the batch. -/
def Full (table : PropertyTable) (node : NodeId) (indices : List Nat) : Prop :=
  (table.get? node = none ∧ table.capacity ≤ table.size) ∨
    maxPropertiesPerNode < ((table.before node).places ∪ indices.toFinset).card

theorem mergeInPlace_of_full {table : PropertyTable} {node : NodeId} {entries : List Entry}
    (full : table.Full node (entries.map Prod.fst)) :
    ∃ e, table.merge node entries = .error e ∧
      table.mergeInPlace node entries = (table, .error e) := by
  unfold Full at full
  rw [← NodeProperties.overflows_iff, ← Option.isNone_iff_eq_none] at full
  rw [merge_eq, mergeInPlace]
  by_cases known : (table.get? node).isNone ∧ table.capacity ≤ table.size
  · rw [if_pos known, if_pos known]
    exact ⟨_, rfl, rfl⟩
  · have crowded := full.resolve_left known
    rw [if_neg known, if_neg known, if_pos crowded, if_pos crowded]
    exact ⟨_, rfl, rfl⟩

theorem mergeInPlace_of_not_full {table : PropertyTable} {node : NodeId} {entries : List Entry}
    (room : ¬table.Full node (entries.map Prod.fst)) :
    ∃ info, table.merge node entries = .ok { table with nodes := table.nodes.insert node info } ∧
      table.mergeInPlace node entries =
        ({ table with nodes := table.nodes.insert node info }, .ok ()) ∧
      info.node = (table.before node).node ∧
      ∀ i, info.get? i = (lastValue? entries i).or (table.value? node i) := by
  unfold Full at room
  rw [not_or, ← NodeProperties.overflows_iff, ← Option.isNone_iff_eq_none, Bool.not_eq_true]
    at room
  obtain ⟨info, stored, sameNode, each⟩ := NodeProperties.insertEach_of_room room.2
  refine ⟨info, ?_, ?_, sameNode, fun i => ?_⟩
  · rw [merge_eq, if_neg room.1, if_neg (by simp [room.2]), stored]
    rfl
  · rw [mergeInPlace, if_neg room.1, if_neg (by simp [room.2]), each]
  · rw [NodeProperties.get?_of_foldlM_insert stored, get?_before]

end PropertyTable

namespace Styling

/-- Lets an accepted line of `length` bytes take effect in place. -/
def commitInPlace (s : Styling) (length : Nat) (line : ScannedLine) :
    Styling × Except ParseError Unit :=
  match line.scope with
  | .global =>
    ({ s with cascade := s.cascade.setAllGlobal (line.assignments.map Assignment.pair) }, .ok ())
  | .node id =>
    if line.assignments.isEmpty then (s, .ok ())
    else
      let (table, outcome) := s.table.mergeInPlace id (line.assignments.map Assignment.entry)
      ({ s with table }, outcome.mapError fun e => ⟨.ofStore e, ⟨0, length⟩⟩)

/-- Scans a line and lets it take effect in place. -/
def applyInPlace (s : Styling) (line : List Char) : Styling × Except ParseError (List Diagnostic) :=
  match scanLine line with
  | .error e => (s, .error e)
  | .ok scanned =>
    let (next, outcome) := s.commitInPlace (byteLength line) scanned
    (next, outcome.map fun _ => scanned.diagnostics)

theorem commitInPlace_node_eq (s : Styling) (length : Nat) (id : NodeId)
    (pairs : List Assignment) :
    s.commitInPlace length (ScannedLine.ofPairs (.node id) pairs) =
      if (storedEntries pairs).isEmpty then (s, .ok ())
      else
        ({ s with table := (s.table.mergeInPlace id (storedEntries pairs)).1 },
          (s.table.mergeInPlace id (storedEntries pairs)).2.mapError
            fun e => ⟨.ofStore e, ⟨0, length⟩⟩) := by
  rw [← map_entry_ofPairs_node id, List.isEmpty_map]
  rfl

/-- What a line changes, by what it sets properties of and the pairs in it: of the style of the
whole diagram what the line names, or of the table what is stored for its node. -/
inductive Changed (s next : Styling) (pairs : List Assignment) : LineScope → Prop
  | whole (table : next.table = s.table)
      (overrides : ∀ p, next.cascade.overrides.get p =
        (lastValue? (pairs.map Assignment.pair) p).getD (s.cascade.overrides.get p))
      (view : ∀ p, next.cascade.view.get p =
        (lastValue? (pairs.map Assignment.pair) p).getD (s.cascade.view.get p)) :
      Changed s next pairs .global
  | own {id : NodeId} (cascade : next.cascade = s.cascade)
      (capacity : next.table.capacity = s.table.capacity)
      (others : ∀ k, k ≠ id → next.table.get? k = s.table.get? k)
      (nothing : storedEntries pairs = [] → next.table.get? id = s.table.get? id)
      (entry : storedEntries pairs ≠ [] → ∃ info, next.table.get? id = some info ∧
        info.node = (s.table.before id).node ∧
        ∀ i, info.get? i = (lastValue? (storedEntries pairs) i).or (s.table.value? id i)) :
      Changed s next pairs (.node id)

/-- There is no room for what a line assigns to its node. -/
def Refuses (s : Styling) (pairs : List Assignment) : LineScope → Prop
  | .global => False
  | .node id => storedEntries pairs ≠ [] ∧
      s.table.Full id ((storedEntries pairs).map Prod.fst)

/-- An accepted line takes effect, or there is no room for it and nothing changes. In place it has
the same outcome. -/
theorem commit_cases (s : Styling) (length : Nat) (scope : LineScope) {pairs : List Assignment}
    (takes : ∀ a ∈ pairs, a.property.rule.Takes a.value) :
    (¬s.Refuses pairs scope ∧ ∃ next,
      s.commit length (ScannedLine.ofPairs scope pairs) = .ok next ∧
      s.commitInPlace length (ScannedLine.ofPairs scope pairs) = (next, .ok ()) ∧
      Changed s next pairs scope) ∨
    (s.Refuses pairs scope ∧ ∃ e,
      s.commit length (ScannedLine.ofPairs scope pairs) = .error e ∧
      s.commitInPlace length (ScannedLine.ofPairs scope pairs) = (s, .error e)) := by
  cases scope with
  | global =>
    have takes' : ∀ pair ∈ pairs.map Assignment.pair, pair.1.rule.Takes pair.2 := by
      intro pair member
      obtain ⟨a, inLine, rfl⟩ := List.mem_map.mp member
      exact takes a inLine
    refine .inl ⟨id, _, rfl, rfl, .whole rfl (fun p => ?_) fun p => ?_⟩
    · rw [ScannedLine.ofPairs, Cascade.overrides_setAllGlobal, Style.get_setAll _ takes']
    · rw [ScannedLine.ofPairs, Cascade.view_setAllGlobal, Style.get_setAll _ takes']
  | node id =>
    rw [commit_node_eq, commitInPlace_node_eq]
    by_cases nothing : storedEntries pairs = []
    · rw [nothing]
      refine .inl ⟨fun refused => refused.1 nothing, s, rfl, rfl, ?_⟩
      exact .own rfl rfl (fun _ _ => rfl) (fun _ => rfl) fun some_ => absurd nothing some_
    · have some_ : ¬(storedEntries pairs).isEmpty = true := by simpa using nothing
      rw [if_neg some_, if_neg some_]
      by_cases full : s.table.Full id ((storedEntries pairs).map Prod.fst)
      · obtain ⟨e, refused, still⟩ := PropertyTable.mergeInPlace_of_full full
        rw [refused, still]
        exact .inr ⟨⟨nothing, full⟩, ⟨.ofStore e, ⟨0, length⟩⟩, rfl, rfl⟩
      · obtain ⟨info, stored, changed, sameNode, values⟩ :=
          PropertyTable.mergeInPlace_of_not_full full
        rw [stored, changed]
        refine .inl ⟨fun refused => full refused.2, _, rfl, rfl, ?_⟩
        refine .own rfl rfl (fun k other => ?_) (fun none_ => absurd none_ nothing) fun _ => ?_
        · rw [PropertyTable.get?_insert, if_neg other]
          rfl
        · exact ⟨info, by rw [PropertyTable.get?_insert, if_pos rfl], sameNode, values⟩

/-- A line cannot be read, or it takes effect, or there is no room for what it assigns. In place it
has the same outcome, and nothing has changed if it is rejected. -/
theorem applyInPlace_cases (s : Styling) (line : List Char) :
    (∃ e, scanLine line = .error e ∧ s.applyInPlace line = (s, .error e) ∧
      s.applyLine line = .error e) ∨
    ∃ scope pairs, Line.LineText scope pairs line ∧
      ((¬s.Refuses pairs scope ∧ ∃ next,
        s.applyInPlace line = (next, .ok (ScannedLine.ofPairs scope pairs).diagnostics) ∧
          s.applyLine line = .ok (next, (ScannedLine.ofPairs scope pairs).diagnostics) ∧
          Changed s next pairs scope) ∨
      (s.Refuses pairs scope ∧ ∃ e, s.applyInPlace line = (s, .error e) ∧
        s.applyLine line = .error e)) := by
  cases scanned : scanLine line with
  | error e =>
    refine .inl ⟨e, rfl, ?_, bind_eq_error.mpr (.inl scanned)⟩
    rw [applyInPlace, scanned]
  | ok accepted =>
    obtain ⟨scope, pairs, said, rfl⟩ := scanLine_eq_ok_iff.mp scanned
    have takes : ∀ a ∈ pairs, a.property.rule.Takes a.value :=
      fun a member => Rule.takes_of_admits (said.admits a member)
    refine .inr ⟨scope, pairs, said, ?_⟩
    rcases s.commit_cases (byteLength line) scope takes with
      ⟨room, next, done, inPlace, changed⟩ | ⟨refused, e, failed, inPlace⟩
    · refine .inl ⟨room, next, ?_, ?_, changed⟩
      · rw [applyInPlace, scanned]
        simp only [inPlace]
        rfl
      · exact bind_eq_ok.mpr ⟨_, scanned, bind_eq_ok.mpr ⟨next, done, rfl⟩⟩
    · refine .inr ⟨refused, e, ?_, ?_⟩
      · rw [applyInPlace, scanned]
        simp only [inPlace]
        rfl
      · exact bind_eq_error.mpr (.inr ⟨_, scanned, bind_eq_error.mpr (.inl failed)⟩)

/-- A line that is rejected changes nothing, although a table is changed entry by entry. A line that
is accepted changes its node alone, or what it names of the whole diagram, and all of its
assignments count. It is rejected exactly if it cannot be read or there is no room for what it
assigns. -/
theorem applyLine_atomic (s : Styling) (line : List Char) :
    s.applyLine line =
        (s.applyInPlace line).2.map (fun found => ((s.applyInPlace line).1, found)) ∧
      (∀ e, (s.applyInPlace line).2 = .error e → (s.applyInPlace line).1 = s) ∧
      (∀ found, (s.applyInPlace line).2 = .ok found → ∃ scope pairs,
        Line.LineText scope pairs line ∧
          found = (ScannedLine.ofPairs scope pairs).diagnostics ∧
          Changed s (s.applyInPlace line).1 pairs scope) ∧
      ((∃ e, (s.applyInPlace line).2 = .error e) ↔ (∃ e, scanLine line = .error e) ∨
        ∃ scope pairs, Line.LineText scope pairs line ∧ s.Refuses pairs scope) := by
  rcases s.applyInPlace_cases line with
    ⟨e, unread, inPlace, applied⟩ | ⟨scope, pairs, said, ⟨room, next, inPlace, applied, changed⟩ |
      ⟨refused, e, inPlace, applied⟩⟩
  · rw [inPlace, applied]
    refine ⟨rfl, fun _ _ => rfl, fun _ done => (by cases done), ?_⟩
    exact ⟨fun _ => .inl ⟨e, unread⟩, fun _ => ⟨e, rfl⟩⟩
  · rw [inPlace, applied]
    refine ⟨rfl, fun _ failed => (by cases failed), fun found same => ?_, ?_, ?_⟩
    · cases same
      exact ⟨scope, pairs, said, rfl, changed⟩
    · rintro ⟨e, failed⟩
      cases failed
    · rintro (⟨e, unread⟩ | ⟨scope', pairs', said', refused⟩)
      · rw [scanLine_eq_ok_iff.mpr ⟨scope, pairs, said, rfl⟩] at unread
        cases unread
      · -- a line says one thing only
        have same := (Line.scanAll_of_lineText said).symm.trans (Line.scanAll_of_lineText said')
        cases same
        exact absurd refused room
  · rw [inPlace, applied]
    refine ⟨rfl, fun _ _ => rfl, fun _ done => (by cases done), ?_⟩
    exact ⟨fun _ => .inr ⟨scope, pairs, said, refused⟩, fun _ => ⟨e, rfl⟩⟩

/-- A table with room for one node, and that node in it. -/
def occupied : Styling :=
  { table := { nodes := ({} : Std.TreeMap NodeId NodeProperties).insert 7 (.new 7)
               capacity := 1 } }

/-- A line for another node has no effect there, one for the node it holds has. -/
theorem applyLine_atomic_occupied :
    (∃ e, occupied.applyLine "8[NodeRadius=4]".toList = .error e) ∧
      (occupied.applyInPlace "8[NodeRadius=4]".toList).1 = occupied ∧
      ∃ next found, occupied.applyLine "7[FillColor=1, FillColor=2]".toList = .ok (next, found) ∧
        ∃ scope pairs, Line.LineText scope pairs "7[FillColor=1, FillColor=2]".toList ∧
          Changed occupied next pairs scope := by
  obtain ⟨same, still, -, -⟩ := applyLine_atomic occupied "8[NodeRadius=4]".toList
  obtain ⟨same', -, changed, -⟩ :=
    applyLine_atomic occupied "7[FillColor=1, FillColor=2]".toList
  have refused : (occupied.applyInPlace "8[NodeRadius=4]".toList).2.toOption.isNone = true := by
    decide +kernel
  have accepted : (occupied.applyInPlace
      "7[FillColor=1, FillColor=2]".toList).2.toOption.isSome = true := by
    decide +kernel
  cases outcome : (occupied.applyInPlace "8[NodeRadius=4]".toList).2 with
  | ok found =>
    rw [outcome] at refused
    cases refused
  | error e =>
    rw [outcome] at same
    cases outcome' : (occupied.applyInPlace "7[FillColor=1, FillColor=2]".toList).2 with
    | error e =>
      rw [outcome'] at accepted
      cases accepted
    | ok found =>
      rw [outcome'] at same'
      obtain ⟨scope, pairs, said, -, effect⟩ := changed found outcome'
      exact ⟨⟨e, same⟩, still e outcome, _, found, same', scope, pairs, said, effect⟩

end Styling

end TreeDiagram
