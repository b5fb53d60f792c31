import TreeDiagram.Proofs.Property.Acceptance
import TreeDiagram.Proofs.Text.Lines
/-!
# Where pairs stand

The pairs that are read off a line stand at their spans, one behind the other. A line for a node
warns of those that the node does not take.
-/

namespace TreeDiagram

namespace Line

/-- Of two pairs the first one ends before the second one begins. -/
def InOrder (a b : Assignment) : Prop :=
  a.span.stop ≤ b.span.start

namespace PairsText

variable {pos : Nat} {pairs : List Assignment} {text behind : List Char}

theorem shows (h : PairsText pos pairs text behind) : ∀ a ∈ pairs, ∃ written after,
    (Cursor.mk pos text).Shows a.span written ∧ PairText a.property a.value written after := by
  induction h with
  | @last pos p v blanks written gap behind blank pair isGap =>
    intro a member
    rw [List.mem_singleton.mp member]
    refine ⟨written, _, ?_, pair⟩
    exact Cursor.shows_iff.mpr ⟨blanks, _, rfl, rfl⟩
  | @more pos p v pairs blanks written gap text behind blank pair isGap rest ih =>
    intro a member
    rcases List.mem_cons.mp member with rfl | later
    · refine ⟨written, _, ?_, pair⟩
      exact Cursor.shows_iff.mpr ⟨blanks, _, rfl, rfl⟩
    · obtain ⟨written', after, shows, pair'⟩ := ih a later
      have across : (Cursor.mk pos (blanks ++ (written ++ (gap ++ text)))).Passes
          (blanks ++ (written ++ gap)) ⟨pos + byteLength (blanks ++ (written ++ gap)), text⟩ :=
        ⟨by simp only [List.append_assoc], rfl⟩
      exact ⟨written', after, shows.of_passes across, pair'⟩

theorem inOrder (h : PairsText pos pairs text behind) : pairs.Pairwise InOrder := by
  induction h with
  | last => exact List.pairwise_singleton _ _
  | @more pos p v pairs blanks written gap text behind blank pair isGap rest ih =>
    refine List.pairwise_cons.mpr ⟨?_, ih⟩
    intro a later
    obtain ⟨_, _, shows, -⟩ := rest.shows a later
    have start := shows.bounds.1
    simp only [byteLength_append] at start
    unfold InOrder
    dsimp only
    omega

end PairsText

namespace LineText

variable {scope : LineScope} {pairs : List Assignment} {line : List Char}

/-- The pairs of a line are those behind its bracket, if it has one. -/
theorem exists_pairsText (h : LineText scope pairs line) : pairs = [] ∨
    ∃ run pos text behind, (Cursor.start line).Passes run ⟨pos, text⟩ ∧
      PairsText pos pairs text behind := by
  cases h with
  | number => exact .inl rfl
  | @node id pairs blanks digits blanks' text tail blank node blank' inside ends =>
    refine .inr ⟨blanks ++ (digits ++ blanks') ++ ['['], _, text, tail, ⟨?_, ?_⟩, inside⟩
    · simp [Cursor.start]
    · rw [byteLength_append (blanks ++ (digits ++ blanks'))]
      exact (Nat.zero_add _).symm
  | @whole pairs blanks text tail blank inside ends =>
    refine .inr ⟨blanks ++ ['['], _, text, tail, ⟨?_, ?_⟩, inside⟩
    · simp [Cursor.start]
    · rw [byteLength_append]
      exact (Nat.zero_add _).symm

theorem shows (h : LineText scope pairs line) : ∀ a ∈ pairs, ∃ written after,
    (Cursor.start line).Shows a.span written ∧ PairText a.property a.value written after := by
  intro a member
  rcases h.exists_pairsText with rfl | ⟨run, pos, text, behind, across, inside⟩
  · cases member
  · obtain ⟨written, after, shows, pair⟩ := inside.shows a member
    exact ⟨written, after, shows.of_passes across, pair⟩

theorem inOrder (h : LineText scope pairs line) : pairs.Pairwise InOrder := by
  rcases h.exists_pairsText with rfl | ⟨run, pos, text, behind, across, inside⟩
  · exact .nil
  · exact inside.inOrder

theorem admits (h : LineText scope pairs line) :
    ∀ a ∈ pairs, a.property.rule.Admits a.value := by
  intro a member
  obtain ⟨written, after, -, pair⟩ := h.shows a member
  cases pair with
  | intro _ _ _ _ _ admits => exact admits

theorem named (h : LineText scope pairs line) : ∀ k, scope = .node k → k ≤ maxNodeId := by
  rintro k rfl
  cases h with
  | number _ node => exact node.named
  | node _ node => exact node.named

end LineText

end Line

/-- A property line of an input, and what it says. -/
structure Reading where
  line : SourceLine
  scope : LineScope
  pairs : List Assignment
  said : Line.LineText scope pairs line.text

namespace Reading

/-- The warnings that a line gives: one for each pair of extend scope in a line for a node, in the
order of the pairs and at their places in the input. -/
def warnings (r : Reading) : List Diagnostic :=
  match r.scope with
  | .global => []
  | .node id => (r.pairs.filter fun a => a.property.scope = .extend).map
      fun a => ⟨a.span.shift r.line.offset, id, a.property⟩

variable {r : Reading}

/-- Each warning shows a pair of the line that the node does not take. -/
theorem exists_of_mem_warnings {d : Diagnostic} (member : d ∈ r.warnings) :
    r.scope = .node d.node ∧ d.property.scope = .extend ∧
      ∃ a ∈ r.pairs, a.property = d.property ∧ ∃ written after,
        (Cursor.mk r.line.offset r.line.text).Shows d.span written ∧
          Line.PairText a.property a.value written after := by
  unfold warnings at member
  split at member
  · cases member
  · next id scope =>
    obtain ⟨a, kept, rfl⟩ := List.mem_map.mp member
    rw [List.mem_filter, decide_eq_true_eq] at kept
    obtain ⟨written, after, shows, pair⟩ := r.said.shows a kept.1
    have moved := shows.shift r.line.offset
    rw [Nat.zero_add] at moved
    exact ⟨scope, kept.2, a, kept.1, rfl, written, after, moved, pair⟩

/-- Of two warnings the first one ends before the second one begins. -/
def InOrder (d later : Diagnostic) : Prop :=
  d.span.stop ≤ later.span.start

theorem inOrder_warnings (r : Reading) : r.warnings.Pairwise InOrder := by
  unfold warnings
  split
  · exact .nil
  · next id scope =>
    rw [List.pairwise_map]
    have order := r.said.inOrder.filter fun a => a.property.scope = .extend
    apply order.imp
    intro a b ordered
    exact Nat.add_le_add_right ordered r.line.offset

/-- The warnings of a line lie within its text. -/
theorem warning_inside {d : Diagnostic} (member : d ∈ r.warnings) :
    r.line.span.start ≤ d.span.start ∧ d.span.stop ≤ r.line.span.stop := by
  obtain ⟨-, -, a, -, -, written, after, shows, -⟩ := exists_of_mem_warnings member
  exact shows.bounds

theorem inOrder_flatMap_warnings {readings : List Reading}
    (order : (readings.map Reading.line).Pairwise SourceLine.Before) :
    (readings.flatMap Reading.warnings).Pairwise InOrder := by
  rw [List.pairwise_map] at order
  refine List.pairwise_flatMap.mpr ⟨fun r _ => r.inOrder_warnings, order.imp ?_⟩
  intro r later before d member d' member'
  have stop := (warning_inside member).2
  have start := (warning_inside member').1
  exact Nat.le_trans stop (Nat.le_trans before start)

end Reading

end TreeDiagram
