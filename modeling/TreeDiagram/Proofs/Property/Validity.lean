import TreeDiagram.Session
import TreeDiagram.Proofs.Property.Offence
import TreeDiagram.Proofs.Property.Styling
import TreeDiagram.Proofs.Property.Warning
import TreeDiagram.Proofs.Stylesheet
/-!
# What property lines leave behind

Whatever lines are read, accepted or not, the table holds only what may be stored for single nodes,
no node is in it without a property, and its capacity is kept; the style of the whole diagram has
only values that are built in or obey their rules. As there are fewer base properties than a node
may hold, no node ever runs full.
-/

namespace TreeDiagram

/-- A value that may be stored for a node at a place of the order: the place is that of a base
property, and the rule of the property admits the value. -/
def Storable (i : Nat) (v : Value) : Prop :=
  ∃ p : Property, p.index = i ∧ p.scope = .base ∧ p.rule.Admits v

/-- The places of the base properties. -/
def basePlaces : List Nat :=
  (Property.all.filter fun p => p.scope = .base).map Property.index

theorem Storable.mem_basePlaces {i : Nat} {v : Value} (storable : Storable i v) :
    i ∈ basePlaces := by
  obtain ⟨p, rfl, base, -⟩ := storable
  cases p <;> first | decide | cases base

theorem length_basePlaces_le : basePlaces.length ≤ maxPropertiesPerNode := by
  decide

/-! ## The properties of a node -/

namespace NodeProperties

/-- A node holds only what may be stored for it. -/
def Sound (info : NodeProperties) : Prop :=
  ∀ i v, info.get? i = some v → Storable i v

theorem Sound.mem_basePlaces {info : NodeProperties} (sound : info.Sound) {i : Nat}
    (held : i ∈ info.values) : i ∈ basePlaces := by
  rw [Std.TreeMap.mem_iff_isSome_getElem?, Option.isSome_iff_exists] at held
  obtain ⟨v, found⟩ := held
  exact (sound i v found).mem_basePlaces

/-- What a node holds and what is new to it are different places. -/
theorem size_add_fresh_le {info : NodeProperties} {indices places : List Nat}
    (held : ∀ i ∈ info.values, i ∈ places) (listed : ∀ i ∈ indices, i ∈ places) :
    info.size + info.fresh indices ≤ places.length := by
  have inside : info.places ∪ indices.toFinset ⊆ places.toFinset := by
    intro i member
    rw [List.mem_toFinset]
    rcases Finset.mem_union.mp member with inInfo | inIndices
    · exact held i (mem_places.mp inInfo)
    · exact listed i (List.mem_toFinset.mp inIndices)
  rw [size_add_fresh]
  exact (Finset.card_le_card inside).trans (List.toFinset_card_le places)

theorem Sound.overflows_eq_false {info : NodeProperties} (sound : info.Sound) {indices : List Nat}
    (listed : ∀ i ∈ indices, i ∈ basePlaces) : info.overflows indices = false := by
  have fits := size_add_fresh_le (fun i held => sound.mem_basePlaces held) listed
  rw [overflows, decide_eq_false_iff_not, Nat.not_lt]
  exact Nat.le_trans fits length_basePlaces_le

theorem Sound.insert {info : NodeProperties} (sound : info.Sound) {entry : Entry}
    (storable : Storable entry.1 entry.2) : ∃ next, info.insert entry = .ok next ∧
      next.Sound ∧ next.node = info.node ∧ 0 < next.size := by
  have room : info.overflows [entry.1] = false := by
    apply sound.overflows_eq_false
    intro i member
    rw [List.mem_singleton.mp member]
    exact storable.mem_basePlaces
  let next : NodeProperties := { info with values := info.values.insert entry.1 entry.2 }
  have done : info.insert entry = .ok next := by
    rw [NodeProperties.insert, if_neg (by simp [room])]
  refine ⟨next, done, ?_, rfl, ?_⟩
  · intro i v found
    rw [get?_of_insert done] at found
    by_cases same : entry.1 = i
    · rw [if_pos same] at found
      cases found
      rw [← same]
      exact storable
    · rw [if_neg same] at found
      exact sound i v found
  · apply Nat.pos_of_ne_zero
    intro none_
    have empty : (info.values.insert entry.1 entry.2).isEmpty = true := by
      rw [Std.TreeMap.isEmpty_eq_size_eq_zero]
      exact beq_iff_eq.mpr none_
    rw [Std.TreeMap.isEmpty_insert] at empty
    cases empty

/-- A batch that may be stored is stored to its end. -/
theorem Sound.foldlM_insert {info : NodeProperties} (sound : info.Sound) {entries : List Entry}
    (storable : ∀ entry ∈ entries, Storable entry.1 entry.2) :
    ∃ next, entries.foldlM NodeProperties.insert info = .ok next ∧ next.Sound ∧
      next.node = info.node ∧ (entries ≠ [] → 0 < next.size) := by
  induction entries generalizing info with
  | nil => exact ⟨info, rfl, sound, rfl, fun some_ => absurd rfl some_⟩
  | cons entry later ih =>
    obtain ⟨middle, first, soundMiddle, sameNode, positive⟩ :=
      sound.insert (storable entry List.mem_cons_self)
    obtain ⟨next, rest, soundNext, sameNode', positive'⟩ :=
      ih soundMiddle fun entry' member => storable entry' (List.mem_cons_of_mem _ member)
    refine ⟨next, ?_, soundNext, sameNode'.trans sameNode, fun _ => ?_⟩
    · rw [List.foldlM_cons, first]
      exact rest
    · by_cases nothing : later = []
      · subst nothing
        cases rest
        exact positive
      · exact positive' nothing

/-- What a table holds for a node. -/
structure Valid (node : NodeId) (info : NodeProperties) : Prop where
  own : info.node = node
  named : node ≤ maxNodeId
  notEmpty : 0 < info.size
  sound : info.Sound

end NodeProperties

/-! ## The table -/

/-- A table of a given capacity with nothing in it that may not be stored. -/
structure PropertyTable.Valid (capacity : Nat) (table : PropertyTable) : Prop where
  limit : table.capacity = capacity
  fits : table.size ≤ capacity
  nodes : ∀ node info, table.get? node = some info → info.Valid node

namespace PropertyTable

variable {capacity : Nat} {table : PropertyTable}

theorem valid_ofCapacity (capacity : Nat) : (ofCapacity capacity).Valid capacity where
  limit := rfl
  fits := Nat.zero_le capacity
  nodes node info found := by simp [ofCapacity, get?] at found

theorem size_insert_le {node : NodeId} (info : NodeProperties)
    (room : node ∉ table.nodes → table.size < capacity) (fits : table.size ≤ capacity) :
    (table.nodes.insert node info).size ≤ capacity := by
  rw [Std.TreeMap.size_insert]
  by_cases known : table.nodes.contains node = true
  · rw [if_pos known]
    exact fits
  · rw [if_neg known]
    apply room
    intro member
    exact known (Std.TreeMap.contains_iff_mem.mpr member)

/-- The properties that a node has, or none, are sound. -/
theorem Valid.sound_getD (valid : table.Valid capacity) (node : NodeId) :
    ((table.get? node).getD (NodeProperties.new node)).Sound ∧
      ((table.get? node).getD (NodeProperties.new node)).node = node := by
  cases found : table.get? node with
  | none =>
    refine ⟨?_, rfl⟩
    intro i v held
    simp [NodeProperties.new, NodeProperties.get?] at held
  | some info => exact ⟨(valid.nodes node info found).sound, (valid.nodes node info found).own⟩

/-- A batch of what may be stored is taken, unless it is for a new node and the table is full. -/
theorem Valid.merge (valid : table.Valid capacity) {node : NodeId} {entries : List Entry}
    (named : node ≤ maxNodeId) (some_ : entries ≠ [])
    (storable : ∀ entry ∈ entries, Storable entry.1 entry.2) :
    table.merge node entries = .error (.nodeTableOverflow capacity) ∨
      ∃ next, table.merge node entries = .ok next ∧ next.Valid capacity := by
  unfold PropertyTable.merge
  dsimp only
  rw [valid.limit]
  by_cases full : (table.get? node).isNone ∧ capacity ≤ table.size
  · rw [if_pos full]
    exact .inl rfl
  · right
    obtain ⟨sound, own⟩ := valid.sound_getD node
    have room : ((table.get? node).getD (NodeProperties.new node)).overflows
        (entries.map Prod.fst) = false := by
      apply sound.overflows_eq_false
      intro i member
      obtain ⟨entry, inEntries, rfl⟩ := List.mem_map.mp member
      exact (storable entry inEntries).mem_basePlaces
    obtain ⟨info, stored, soundInfo, sameNode, positive⟩ := sound.foldlM_insert storable
    rw [if_neg full, if_neg (by simp [room]), stored]
    refine ⟨_, rfl, rfl, ?_, ?_⟩
    · -- a node that the table knows is replaced, so only a new one needs room
      apply size_insert_le info _ valid.fits
      intro unknown
      rw [Std.TreeMap.mem_iff_isSome_getElem?, Option.not_isSome_iff_eq_none] at unknown
      apply Nat.lt_of_not_le
      intro noRoom
      exact full ⟨Option.isNone_iff_eq_none.mpr unknown, noRoom⟩
    · intro k held found
      rw [get?_insert] at found
      by_cases here : k = node
      · rw [if_pos here] at found
        cases found
        subst here
        exact ⟨sameNode.trans own, named, positive some_, soundInfo⟩
      · rw [if_neg here] at found
        exact valid.nodes k held found

end PropertyTable

/-! ## Lines -/

/-- Every value of a style is built in or obeys the rule of its property. -/
def Style.Valid (s : Style) : Prop :=
  ∀ p, s.get p = ({} : Style).get p ∨ p.rule.Admits (s.get p)

theorem Style.Valid.setAll {s : Style} (valid : s.Valid) {assignments : List (Property × Value)}
    (admits : ∀ a ∈ assignments, a.1.rule.Admits a.2) : (s.setAll assignments).Valid := by
  intro p
  rw [s.get_setAll fun a member => Rule.takes_of_admits (admits a member)]
  cases last : lastValue? assignments p with
  | none => exact valid p
  | some v => exact .inr (admits _ (mem_of_lastValue? last))

namespace Styling

/-- What is true whatever lines were read. -/
structure Valid (capacity : Nat) (s : Styling) : Prop where
  table : s.table.Valid capacity
  overrides : s.cascade.overrides.Valid

/-- The state behind a line. A line that is rejected leaves it as it was. -/
def afterLine (s : Styling) (line : List Char) : Styling :=
  match s.applyLine line with
  | .ok (next, _) => next
  | .error _ => s

/-- The state behind several lines. -/
def afterLines (s : Styling) (lines : List (List Char)) : Styling :=
  lines.foldl afterLine s

variable {capacity : Nat} {s : Styling}

theorem valid_initialStyling {sheet : Stylesheet} (loaded : sheet.Loaded) (capacity : Nat) :
    (Session.initialStyling sheet capacity).Valid capacity where
  table := PropertyTable.valid_ofCapacity capacity
  overrides := by
    have builtIn : ({} : Style).Valid := fun p => .inl rfl
    change (Cascade.setAllGlobal {} sheet.defaults).overrides.Valid
    rw [Cascade.overrides_setAllGlobal]
    exact builtIn.setAll loaded.admits

/-- What a line reads takes effect, unless the table has no room for its node. -/
theorem Valid.commit (valid : s.Valid capacity) {scope : LineScope} {pairs : List Assignment}
    (admits : ∀ a ∈ pairs, a.property.rule.Admits a.value)
    (named : ∀ k, scope = .node k → k ≤ maxNodeId) (length : Nat) :
    s.commit length (ScannedLine.ofPairs scope pairs) =
        .error ⟨.nodeTableOverflow capacity, ⟨0, length⟩⟩ ∨
      ∃ next, s.commit length (ScannedLine.ofPairs scope pairs) = .ok next ∧
        next.Valid capacity := by
  cases scope with
  | global =>
    right
    refine ⟨_, rfl, valid.table, ?_⟩
    rw [Cascade.overrides_setAllGlobal]
    apply valid.overrides.setAll
    intro a member
    obtain ⟨pair, inLine, rfl⟩ := List.mem_map.mp member
    exact admits pair inLine
  | node id =>
    have storable : ∀ entry ∈ storedEntries pairs, Storable entry.1 entry.2 := by
      intro entry member
      obtain ⟨a, inKept, rfl⟩ := List.mem_map.mp member
      obtain ⟨inLine, base⟩ := List.mem_filter.mp inKept
      exact ⟨a.property, rfl, of_decide_eq_true base, admits a inLine⟩
    rw [commit_node_eq]
    by_cases nothing : (storedEntries pairs).isEmpty = true
    · rw [if_pos nothing]
      exact .inr ⟨s, rfl, valid⟩
    · rw [if_neg nothing]
      have someEntries : storedEntries pairs ≠ [] := by simpa using nothing
      rcases valid.table.merge (named id rfl) someEntries storable with full | ⟨table, done, held⟩
      · rw [full]
        exact .inl rfl
      · rw [done]
        exact .inr ⟨_, rfl, held, valid.overrides⟩

/-- A line is read and keeps what is true of every state, or it is rejected for what stands in it,
or the table has no room for its node. -/
theorem Valid.applyLine (valid : s.Valid capacity) (line : List Char) :
    (∃ next found, s.applyLine line = .ok (next, found) ∧ next.Valid capacity) ∨
      ∃ e, s.applyLine line = .error e ∧ (e.LocatedIn (Cursor.start line) ∨
        e = ⟨.nodeTableOverflow capacity, ⟨0, byteLength line⟩⟩) := by
  unfold Styling.applyLine
  cases scanned : scanLine line with
  | error e => exact .inr ⟨e, rfl, .inl (locatedIn_of_scanLine scanned)⟩
  | ok accepted =>
    obtain ⟨scope, pairs, said, rfl⟩ := scanLine_eq_ok_iff.mp scanned
    rcases valid.commit said.admits said.named (byteLength line) with full | ⟨next, done, held⟩
    · right
      exact ⟨_, bind_eq_error.mpr (.inr ⟨_, rfl, bind_eq_error.mpr (.inl full)⟩), .inr rfl⟩
    · left
      refine ⟨next, (ScannedLine.ofPairs scope pairs).diagnostics, ?_, held⟩
      exact bind_eq_ok.mpr ⟨_, rfl, bind_eq_ok.mpr ⟨next, done, rfl⟩⟩

/-- No line is rejected because a node has too many properties. -/
theorem Valid.kind_ne (valid : s.Valid capacity) {line : List Char} {e : ParseError}
    (failed : s.applyLine line = .error e) : e.kind ≠ .propertySetOverflow := by
  rcases valid.applyLine line with ⟨next, found, done, -⟩ | ⟨e', failed', reason⟩
  · rw [done] at failed
    cases failed
  · rw [failed'] at failed
    cases failed
    rcases reason with ⟨text, -, names⟩ | rfl
    · intro full
      unfold ParseError.kind at full
      cases cause : e.cause <;> rw [cause] at names full <;> first | exact names | cases full
    · intro full
      cases full

theorem Valid.afterLine (valid : s.Valid capacity) (line : List Char) :
    (s.afterLine line).Valid capacity := by
  unfold Styling.afterLine
  split
  · next next found done =>
    rcases valid.applyLine line with ⟨next', found', done', held⟩ | ⟨e, failed, -⟩
    · rw [done] at done'
      cases done'
      exact held
    · rw [done] at failed
      cases failed
  · exact valid

theorem Valid.afterLines (valid : s.Valid capacity) (lines : List (List Char)) :
    (s.afterLines lines).Valid capacity := by
  induction lines generalizing s with
  | nil => exact valid
  | cons line later ih => exact ih (valid.afterLine line)

/-- Whatever lines are read over the defaults of a loaded sheet, the state is valid, and no line is
ever rejected because a node has too many properties. -/
theorem valid_after_lines {sheet : Stylesheet} (loaded : sheet.Loaded) (capacity : Nat)
    (lines : List (List Char)) :
    ((Session.initialStyling sheet capacity).afterLines lines).Valid capacity ∧
      ∀ line e, ((Session.initialStyling sheet capacity).afterLines lines).applyLine line =
        .error e → e.kind ≠ .propertySetOverflow := by
  have valid := (valid_initialStyling loaded capacity).afterLines lines
  exact ⟨valid, fun _ _ => valid.kind_ne⟩

/-- Lines for a table of one node: its own line, a line for another node, one with nothing that a
node takes, and one that is no property line. -/
def crowded : List (List Char) :=
  ["7[NodeRadius=3]".toList, "8[NodeRadius=4]".toList, "9[FontSize=12]".toList, "oops".toList]

theorem valid_after_lines_crowded :
    ({} : Stylesheet).Loaded ∧ ((Session.initialStyling {} 1).afterLines crowded).Valid 1 ∧
      ((Session.initialStyling {} 1).afterLines crowded).table.size = 1 ∧
      ∃ e, ((Session.initialStyling {} 1).afterLines crowded).applyLine
        "8[NodeRadius=4]".toList = .error e ∧ e.kind ≠ .propertySetOverflow := by
  have loaded : ({} : Stylesheet).Loaded := .inl rfl
  obtain ⟨valid, kinds⟩ := valid_after_lines loaded 1 crowded
  have size : ((Session.initialStyling {} 1).afterLines crowded).table.size = 1 := by
    decide +kernel
  have refused : (((Session.initialStyling {} 1).afterLines crowded).applyLine
      "8[NodeRadius=4]".toList).toOption.isNone = true := by decide +kernel
  refine ⟨loaded, valid, size, ?_⟩
  cases outcome : ((Session.initialStyling {} 1).afterLines crowded).applyLine
      "8[NodeRadius=4]".toList with
  | error e => exact ⟨e, rfl, kinds _ e outcome⟩
  | ok applied =>
    rw [outcome] at refused
    cases refused

end Styling

end TreeDiagram
