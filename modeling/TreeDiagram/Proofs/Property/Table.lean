import Mathlib.Data.Finset.Card
import Std.Data.TreeMap.Lemmas
import TreeDiagram.Property.Cascade
import TreeDiagram.Proofs.Outcome
import TreeDiagram.Proofs.Property.LastValue
/-!
# What a table of properties holds

A batch of assignments that a table takes replaces what its node holds by the last values of the
batch, and leaves all else as it was.
-/

namespace TreeDiagram

namespace Property

theorem index_inj {p q : Property} : p.index = q.index ↔ p = q := by
  constructor
  · intro same
    have found := ofIndex?_index p
    rw [same, ofIndex?_index] at found
    exact (Option.some.inj found).symm
  · exact congrArg index

theorem index_of_ofIndex? {i : Nat} {p : Property} (found : ofIndex? i = some p) : p.index = i := by
  have places : ∀ k : Fin all.length, (all.get k).index = k := by decide
  obtain ⟨inside, rfl⟩ := List.getElem?_eq_some_iff.mp found
  exact places ⟨i, inside⟩

end Property

theorem nodup_eraseDups {α : Type} [DecidableEq α] (xs : List α) : xs.eraseDups.Nodup := by
  match xs with
  | [] => exact List.nodup_nil
  | x :: later =>
    rw [List.eraseDups_cons]
    refine List.nodup_cons.mpr ⟨?_, nodup_eraseDups _⟩
    intro again
    have kept := (List.mem_filter.mp (List.mem_eraseDups.mp again)).2
    simp at kept
termination_by xs.length
decreasing_by exact Nat.lt_succ_of_le (List.length_filter_le _ later)

namespace NodeProperties

/-- The places of the properties that are set. -/
def places (info : NodeProperties) : Finset Nat :=
  info.values.keys.toFinset

theorem mem_places {info : NodeProperties} {i : Nat} : i ∈ info.places ↔ i ∈ info.values := by
  rw [places, List.mem_toFinset, Std.TreeMap.mem_keys]

theorem card_places (info : NodeProperties) : info.places.card = info.size := by
  rw [places, List.toFinset_card_of_nodup Std.TreeMap.nodup_keys, Std.TreeMap.length_keys, size]

/-- What a node holds and what is new to it are together the places that it holds afterwards. -/
theorem size_add_fresh (info : NodeProperties) (indices : List Nat) :
    info.size + info.fresh indices = (info.places ∪ indices.toFinset).card := by
  have new : (indices.filter fun i => !info.values.contains i).eraseDups.toFinset =
      indices.toFinset \ info.places := by
    ext i
    simp [mem_places, List.mem_eraseDups, ← Std.TreeMap.contains_iff_mem]
  rw [← Finset.union_sdiff_self_eq_union, Finset.card_union_of_disjoint Finset.disjoint_sdiff,
    card_places, ← new, List.toFinset_card_of_nodup (nodup_eraseDups _), fresh]

theorem overflows_iff {info : NodeProperties} {indices : List Nat} :
    info.overflows indices = true ↔
      maxPropertiesPerNode < (info.places ∪ indices.toFinset).card := by
  rw [overflows, decide_eq_true_eq, size_add_fresh]

theorem get?_of_insert {info next : NodeProperties} {entry : Entry}
    (done : info.insert entry = .ok next) (i : Nat) :
    next.get? i = (if entry.1 = i then some entry.2 else none).or (info.get? i) := by
  unfold insert at done
  split at done
  · cases done
  · cases done
    simp only [get?, Std.TreeMap.getElem?_insert, Std.LawfulEqCmp.compare_eq_iff_eq]
    by_cases same : entry.1 = i <;> simp [same]

theorem get?_of_foldlM_insert {info next : NodeProperties} {entries : List Entry}
    (done : entries.foldlM insert info = .ok next) (i : Nat) :
    next.get? i = (lastValue? entries i).or (info.get? i) := by
  induction entries generalizing info with
  | nil =>
    cases done
    rfl
  | cons entry later ih =>
    rw [List.foldlM_cons] at done
    obtain ⟨middle, first, done⟩ := bind_eq_ok.mp done
    rw [ih done, get?_of_insert first, lastValue?_cons, Option.or_assoc]

/-- The properties of a node are assigned each by the value that the node holds for it. -/
theorem lastValue?_assignments (info : NodeProperties) (p : Property) :
    lastValue? info.assignments p = info.get? p.index := by
  -- a place in the order names one property, so values are found by place as by property
  have inOrder (entries : List Entry) : lastValue? (entries.filterMap fun e =>
      (Property.ofIndex? e.1).map fun p => (p, e.2)) p = lastValue? entries p.index := by
    induction entries with
    | nil => rfl
    | cons entry later ih =>
      rw [lastValue?_cons, List.filterMap_cons]
      cases named : Property.ofIndex? entry.1 with
      | none =>
        have other : entry.1 ≠ p.index := by
          intro same
          simp [same] at named
        simp [ih, other]
      | some q =>
        have place := Property.index_of_ofIndex? named
        have same : q = p ↔ entry.1 = p.index := by
          rw [← place]
          exact Property.index_inj.symm
        simp only [Option.map_some, lastValue?_cons, ih, same]
  have distinct : (info.values.toList.map Prod.fst).Nodup := by
    rw [List.Nodup, List.pairwise_map]
    refine info.values.distinct_keys_toList.imp ?_
    intro a b apart same
    simp [same] at apart
  rw [assignments, inOrder, get?]
  apply Option.ext
  intro v
  rw [entries, lastValue?_eq_some_iff distinct, Std.TreeMap.mem_toList_iff_getElem?_eq_some]

end NodeProperties

namespace PropertyTable

/-- The value that a table holds for a property of a node. -/
def value? (table : PropertyTable) (node : NodeId) (i : Nat) : Option Value :=
  (table.get? node).bind fun info => info.get? i

theorem lastValue?_ownAssignments (table : PropertyTable) (node : Option NodeId) (p : Property) :
    lastValue? (ownAssignments (node.bind table.get?)) p =
      node.bind fun k => table.value? k p.index := by
  cases node with
  | none => rfl
  | some k =>
    cases found : table.get? k with
    | none => simp [ownAssignments, value?, found]
    | some info => simp [ownAssignments, value?, found, info.lastValue?_assignments]

theorem value?_of_mem_ownAssignments {table : PropertyTable} {node : Option NodeId} {p : Property}
    {v : Value} (member : (p, v) ∈ ownAssignments (node.bind table.get?)) :
    ∃ k, node = some k ∧ table.value? k p.index = some v := by
  cases node with
  | none => cases member
  | some k =>
    refine ⟨k, rfl, ?_⟩
    cases found : table.get? k with
    | none => simp [ownAssignments, found] at member
    | some info =>
      simp only [ownAssignments, Option.bind_some, found, Option.map_some, Option.getD_some,
        NodeProperties.assignments, List.mem_filterMap, Option.map_eq_some_iff] at member
      obtain ⟨entry, held, q, named, same⟩ := member
      cases same
      rw [value?, found, Property.index_of_ofIndex? named]
      exact Std.TreeMap.mem_toList_iff_getElem?_eq_some.mp held

theorem get?_insert (nodes : Std.TreeMap NodeId NodeProperties) (limit : Nat) (node : NodeId)
    (info : NodeProperties) (k : NodeId) :
    get? ⟨nodes.insert node info, limit⟩ k = if k = node then some info else nodes[k]? := by
  rw [get?, Std.TreeMap.getElem?_insert]
  by_cases here : k = node
  · simp [here]
  · have other : node ≠ k := Ne.symm here
    simp [here, other]

/-- The properties that a node has, or none, before a batch is merged into them. -/
def before (table : PropertyTable) (node : NodeId) : NodeProperties :=
  (table.get? node).getD (NodeProperties.new node)

theorem get?_before (table : PropertyTable) (node : NodeId) (i : Nat) :
    (table.before node).get? i = table.value? node i := by
  rw [before, value?]
  cases table.get? node with
  | none => simp [NodeProperties.new, NodeProperties.get?]
  | some _ => rfl

theorem merge_eq (table : PropertyTable) (node : NodeId) (entries : List Entry) :
    table.merge node entries =
      if (table.get? node).isNone ∧ table.capacity ≤ table.size then
        .error (.nodeTableOverflow table.capacity)
      else if (table.before node).overflows (entries.map Prod.fst) then
        .error (.propertySetOverflow node maxPropertiesPerNode)
      else
        entries.foldlM NodeProperties.insert (table.before node) >>= fun info =>
          .ok { table with nodes := table.nodes.insert node info } :=
  rfl

/-- A batch that is stored went into what the node had before. -/
theorem merge_eq_ok {table next : PropertyTable} {node : NodeId} {entries : List Entry}
    (done : table.merge node entries = .ok next) :
    ∃ info, entries.foldlM NodeProperties.insert (table.before node) = .ok info ∧
      next = { table with nodes := table.nodes.insert node info } := by
  rw [merge_eq] at done
  split at done
  · cases done
  · split at done
    · cases done
    · obtain ⟨info, stored, done⟩ := bind_eq_ok.mp done
      cases done
      exact ⟨info, stored, rfl⟩

theorem value?_of_merge {table next : PropertyTable} {node : NodeId} {entries : List Entry}
    (done : table.merge node entries = .ok next) (k : NodeId) (i : Nat) :
    next.value? k i =
      (if k = node then lastValue? entries i else none).or (table.value? k i) := by
  obtain ⟨info, stored, rfl⟩ := merge_eq_ok done
  rw [value?, get?_insert]
  by_cases same : k = node
  · subst same
    rw [if_pos rfl, if_pos rfl, ← get?_before, ← NodeProperties.get?_of_foldlM_insert stored]
    rfl
  · rw [if_neg same, if_neg same, Option.none_or]
    rfl

end PropertyTable

end TreeDiagram
