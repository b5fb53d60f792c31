import Std.Data.DTreeMap.Internal.WF.Lemmas
import TreeDiagram.Proofs.Property.Atomicity
import TreeDiagram.Proofs.Property.Pass
import TreeDiagram.Proofs.Property.Validity
/-!
# Batches for a table

A table that batches led to, whether it took them or not, holds no more nodes than its capacity and
lists them by their numbers. The next batch is refused for one of two reasons, which are decided
before anything is written, and then nothing changes. Otherwise each of its entries is stored, and
of several for one property the last one counts.
-/

namespace TreeDiagram

theorem values_eq_map_toList {β : Type} (m : Std.TreeMap Nat β) :
    m.values = m.toList.map Prod.snd := by
  change m.inner.inner.values =
    (Std.DTreeMap.Internal.Impl.Const.toList m.inner.inner).map Prod.snd
  rw [Std.DTreeMap.Internal.Impl.values_eq_map_snd,
    Std.DTreeMap.Internal.Impl.Const.toList_eq_toListModel_map, List.map_map]
  rfl

namespace NodeProperties

theorem mem_entries_iff {info : NodeProperties} {i : Nat} {v : Value} :
    (i, v) ∈ info.entries ↔ info.get? i = some v :=
  Std.TreeMap.mem_toList_iff_getElem?_eq_some

/-- While a batch that fits is set, no entry of it is refused. -/
theorem exists_insert_of_room {info : NodeProperties} {done later : List Entry} {entry : Entry}
    (room : info.overflows ((done ++ entry :: later).map Prod.fst) = false) :
    ∃ reached next, done.foldlM insert info = .ok reached ∧ reached.insert entry = .ok next := by
  obtain ⟨last, stored, -, -⟩ := insertEach_of_room room
  rw [List.foldlM_append] at stored
  obtain ⟨reached, first, stored⟩ := bind_eq_ok.mp stored
  rw [List.foldlM_cons] at stored
  obtain ⟨next, taken, -⟩ := bind_eq_ok.mp stored
  exact ⟨reached, next, first, taken⟩

end NodeProperties

namespace PropertyTable

/-- The tables of a capacity that batches lead to. One that is refused counts as well, with what it
leaves behind. -/
inductive Reached (capacity : Nat) : PropertyTable → Prop
  | start : Reached capacity (ofCapacity capacity)
  | merge {table : PropertyTable} (earlier : Reached capacity table) (node : NodeId)
      (entries : List Entry) : Reached capacity (table.mergeInPlace node entries).1

/-- The table lacks the node and holds as many others as it may. -/
def HasNoPlace (table : PropertyTable) (node : NodeId) : Prop :=
  table.get? node = none ∧ table.size = table.capacity

/-- The properties of the node and those of the batch, each counted once, are more than a node
holds. -/
def Crowds (table : PropertyTable) (node : NodeId) (entries : List Entry) : Prop :=
  maxPropertiesPerNode <
    ((table.before node).places ∪ (entries.map Prod.fst).toFinset).card

/-- The nodes of a table are listed by their numbers and the properties of each by their places, and
nothing else is. -/
structure Listed (table : PropertyTable) : Prop where
  byNumber : table.toList.Pairwise fun a b => a.node < b.node
  byPlace : ∀ info ∈ table.toList, info.entries.Pairwise fun a b => a.1 < b.1
  nodes : ∀ info, info ∈ table.toList ↔ table.get? info.node = some info
  values : ∀ info ∈ table.toList, ∀ i v, (i, v) ∈ info.entries ↔ info.get? i = some v

/-- One table follows from another by writing a batch over what a node had. -/
structure Overwritten (table : PropertyTable) (node : NodeId) (entries : List Entry)
    (next : PropertyTable) : Prop where
  own : ∃ info, next.get? node = some info ∧ info.node = node ∧
    ∀ i, info.get? i = (lastValue? entries i).or (table.value? node i)
  others : ∀ k, k ≠ node → next.get? k = table.get? k
  capacity : next.capacity = table.capacity

/-- What batches keep: a table within its capacity whose nodes stand under their own numbers. -/
structure Regular (capacity : Nat) (table : PropertyTable) : Prop where
  limit : table.capacity = capacity
  fits : table.size ≤ capacity
  own : ∀ node info, table.get? node = some info → info.node = node

variable {capacity : Nat} {table : PropertyTable}

theorem regular_ofCapacity (capacity : Nat) : (ofCapacity capacity).Regular capacity where
  limit := rfl
  fits := Nat.zero_le capacity
  own node info found := by simp [ofCapacity, get?] at found

namespace Regular

theorem hasNoPlace_iff (regular : table.Regular capacity) {node : NodeId} :
    table.HasNoPlace node ↔ table.get? node = none ∧ table.capacity ≤ table.size := by
  have fits := regular.fits
  rw [← regular.limit] at fits
  exact and_congr_right fun _ => ⟨fun same => same.ge, fun le => Nat.le_antisymm fits le⟩

theorem node_before (regular : table.Regular capacity) (node : NodeId) :
    (table.before node).node = node := by
  rw [before]
  cases found : table.get? node with
  | none => rfl
  | some info => exact regular.own node info found

theorem mergeInPlace_of_hasNoPlace (regular : table.Regular capacity) {node : NodeId}
    (noPlace : table.HasNoPlace node) (entries : List Entry) :
    table.mergeInPlace node entries = (table, .error (.nodeTableOverflow capacity)) := by
  obtain ⟨absent, full⟩ := regular.hasNoPlace_iff.mp noPlace
  rw [mergeInPlace, if_pos ⟨Option.isNone_iff_eq_none.mpr absent, full⟩, regular.limit]

theorem mergeInPlace_of_crowds (regular : table.Regular capacity) {node : NodeId}
    {entries : List Entry} (place : ¬table.HasNoPlace node) (crowds : table.Crowds node entries) :
    table.mergeInPlace node entries =
      (table, .error (.propertySetOverflow node maxPropertiesPerNode)) := by
  rw [regular.hasNoPlace_iff, ← Option.isNone_iff_eq_none] at place
  rw [mergeInPlace, if_neg place, if_pos (NodeProperties.overflows_iff.mpr crowds)]

/-- A batch for which there is room is written over what its node had. -/
theorem mergeInPlace_of_room (regular : table.Regular capacity) {node : NodeId}
    {entries : List Entry} (place : ¬table.HasNoPlace node) (fits : ¬table.Crowds node entries) :
    ∃ info, table.mergeInPlace node entries =
        ({ table with nodes := table.nodes.insert node info }, .ok ()) ∧ info.node = node ∧
      ∀ i, info.get? i = (lastValue? entries i).or (table.value? node i) := by
  have room : ¬table.Full node (entries.map Prod.fst) := by
    rw [Full, ← regular.hasNoPlace_iff]
    exact not_or.mpr ⟨place, fits⟩
  obtain ⟨info, -, stored, sameNode, values⟩ := mergeInPlace_of_not_full room
  exact ⟨info, stored, sameNode.trans (regular.node_before node), values⟩

/-- A batch keeps a table regular, whether it is taken or not. -/
theorem mergeInPlace (regular : table.Regular capacity) (node : NodeId) (entries : List Entry) :
    (table.mergeInPlace node entries).1.Regular capacity := by
  by_cases noPlace : table.HasNoPlace node
  · rw [regular.mergeInPlace_of_hasNoPlace noPlace]
    exact regular
  · by_cases crowds : table.Crowds node entries
    · rw [regular.mergeInPlace_of_crowds noPlace crowds]
      exact regular
    · obtain ⟨info, stored, own, -⟩ := regular.mergeInPlace_of_room noPlace crowds
      rw [stored]
      refine ⟨regular.limit, ?_, fun k held found => ?_⟩
      · apply size_insert_le info _ regular.fits
        intro unknown
        rw [Std.TreeMap.mem_iff_isSome_getElem?, Option.not_isSome_iff_eq_none] at unknown
        apply Nat.lt_of_le_of_ne regular.fits
        intro full
        exact noPlace ⟨unknown, full.trans regular.limit.symm⟩
      · rw [get?_insert] at found
        by_cases here : k = node
        · rw [if_pos here] at found
          cases found
          exact own.trans here.symm
        · rw [if_neg here] at found
          exact regular.own k held found

theorem mem_toList_iff (regular : table.Regular capacity) {info : NodeProperties} :
    info ∈ table.toList ↔ table.get? info.node = some info := by
  rw [toList, values_eq_map_toList, List.mem_map]
  constructor
  · rintro ⟨⟨k, held⟩, member, rfl⟩
    have found : table.get? k = some held := Std.TreeMap.mem_toList_iff_getElem?_eq_some.mp member
    rw [regular.own k held found]
    exact found
  · intro found
    exact ⟨(info.node, info), Std.TreeMap.mem_toList_iff_getElem?_eq_some.mpr found, rfl⟩

theorem listed (regular : table.Regular capacity) : table.Listed where
  byNumber := by
    rw [toList, values_eq_map_toList, List.pairwise_map]
    refine table.nodes.ordered_keys_toList.imp_of_mem ?_
    intro a b inA inB before
    -- the list is ordered by the numbers under which the nodes stand, and these are their own
    have ownA := regular.own a.1 a.2 (Std.TreeMap.mem_toList_iff_getElem?_eq_some.mp inA)
    have ownB := regular.own b.1 b.2 (Std.TreeMap.mem_toList_iff_getElem?_eq_some.mp inB)
    rw [ownA, ownB]
    exact Nat.compare_eq_lt.mp before
  byPlace info _ := info.pairwise_entries
  nodes _ := regular.mem_toList_iff
  values _ _ _ _ := NodeProperties.mem_entries_iff

end Regular

theorem Reached.regular (reached : Reached capacity table) : table.Regular capacity := by
  induction reached with
  | start => exact regular_ofCapacity capacity
  | merge _ node entries ih => exact ih.mergeInPlace node entries

theorem overwritten_insert {node : NodeId} {entries : List Entry} {info : NodeProperties}
    (own : info.node = node)
    (values : ∀ i, info.get? i = (lastValue? entries i).or (table.value? node i)) :
    table.Overwritten node entries { table with nodes := table.nodes.insert node info } where
  own := ⟨info, by rw [get?_insert, if_pos rfl], own, values⟩
  others k other := by
    rw [get?_insert, if_neg other]
    rfl
  capacity := rfl

/-- Merging in place has the outcome of merging. -/
theorem merge_eq_mergeInPlace (table : PropertyTable) (node : NodeId) (entries : List Entry) :
    table.merge node entries = (table.mergeInPlace node entries).2.map
      fun _ => (table.mergeInPlace node entries).1 := by
  by_cases full : table.Full node (entries.map Prod.fst)
  · obtain ⟨e, refused, still⟩ := mergeInPlace_of_full full
    rw [refused, still]
    rfl
  · obtain ⟨info, merged, stored, -⟩ := mergeInPlace_of_not_full full
    rw [merged, stored]
    rfl

/-- A batch is merged as a whole or not at all. It is refused exactly if there is no place for its
node, or else if there are too many properties for one node; then the table is as it was. Otherwise
it is written over what the node had, and no entry is refused on the way. The nodes of the table and
the properties of each stay in their order. -/
theorem merge_all_or_nothing (reached : Reached capacity table) (node : NodeId)
    (entries : List Entry) :
    table.merge node entries = (table.mergeInPlace node entries).2.map
        (fun _ => (table.mergeInPlace node entries).1) ∧
      ((table.mergeInPlace node entries).2 = .error (.nodeTableOverflow capacity) ↔
        table.HasNoPlace node) ∧
      ((table.mergeInPlace node entries).2 =
          .error (.propertySetOverflow node maxPropertiesPerNode) ↔
        ¬table.HasNoPlace node ∧ table.Crowds node entries) ∧
      ((table.mergeInPlace node entries).2 = .ok () ↔
        ¬table.HasNoPlace node ∧ ¬table.Crowds node entries) ∧
      (∀ e, (table.mergeInPlace node entries).2 = .error e →
        (table.mergeInPlace node entries).1 = table) ∧
      ((table.mergeInPlace node entries).2 = .ok () →
        table.Overwritten node entries (table.mergeInPlace node entries).1 ∧
          ∀ done entry later, entries = done ++ entry :: later → ∃ info next,
            done.foldlM NodeProperties.insert (table.before node) = .ok info ∧
              info.insert entry = .ok next) ∧
      (table.mergeInPlace node entries).1.Listed := by
  have regular := reached.regular
  refine ⟨table.merge_eq_mergeInPlace node entries, ?_⟩
  have listed := (regular.mergeInPlace node entries).listed
  by_cases noPlace : table.HasNoPlace node
  · rw [regular.mergeInPlace_of_hasNoPlace noPlace] at listed ⊢
    simp [noPlace, listed]
  · by_cases crowds : table.Crowds node entries
    · rw [regular.mergeInPlace_of_crowds noPlace crowds] at listed ⊢
      simp [noPlace, crowds, listed]
    · obtain ⟨info, stored, own, values⟩ := regular.mergeInPlace_of_room noPlace crowds
      have room : (table.before node).overflows (entries.map Prod.fst) = false := by
        rw [← Bool.not_eq_true, NodeProperties.overflows_iff]
        exact crowds
      have each : ∀ done entry later, entries = done ++ entry :: later → ∃ info next,
          done.foldlM NodeProperties.insert (table.before node) = .ok info ∧
            info.insert entry = .ok next := by
        rintro done entry later rfl
        exact NodeProperties.exists_insert_of_room room
      rw [stored] at listed ⊢
      refine ⟨by simp [noPlace], by simp [crowds], by simp [noPlace, crowds], ?_, ?_, listed⟩
      · intro e refused
        cases refused
      · exact fun _ => ⟨overwritten_insert own values, each⟩

/-- A table with room for one node, and that node with a property in it. -/
def single : PropertyTable :=
  ((ofCapacity 1).mergeInPlace 7 [(1, .number 5)]).1

theorem merge_all_or_nothing_single :
    Reached 1 single ∧
      single.merge 8 [(1, .number 3)] = .error (.nodeTableOverflow 1) ∧
      (single.mergeInPlace 8 [(1, .number 3)]).1 = single ∧
      single.Overwritten 7 [(1, .number 3), (2, .number 4), (1, .number 9)]
        (single.mergeInPlace 7 [(1, .number 3), (2, .number 4), (1, .number 9)]).1 := by
  have reached : Reached 1 single := .merge .start 7 [(1, .number 5)]
  have noPlace : single.HasNoPlace 8 := by
    constructor
    · decide +kernel
    · decide +kernel
  obtain ⟨merged, noPlaceIff, -, -, still, -⟩ :=
    merge_all_or_nothing reached 8 [(1, .number 3)]
  have refused := noPlaceIff.mpr noPlace
  obtain ⟨-, -, -, takes, -, written, -⟩ :=
    merge_all_or_nothing reached 7 [(1, .number 3), (2, .number 4), (1, .number 9)]
  have place : ¬single.HasNoPlace 7 := fun noPlace => by
    have absent := noPlace.1
    cases absent
  refine ⟨reached, ?_, still _ refused, (written (takes.mpr ⟨place, ?_⟩)).1⟩
  · rw [merged, refused]
    rfl
  · unfold Crowds
    decide +kernel

end PropertyTable

end TreeDiagram
