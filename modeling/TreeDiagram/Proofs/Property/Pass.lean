import Mathlib.Data.List.Nodup
import TreeDiagram.Proofs.Property.Resolver
import TreeDiagram.Proofs.Property.Table
/-!
# Resolving a node from scratch

A pass rewinds only what the node before set. Going on to a node gives all the same what writing the
entries of the node over the style of the whole diagram gives, one after the other in their order,
whichever places and kinds of values they have. Ending a pass with a last node rewinds nothing: what
the node before it set stays in view.
-/

namespace TreeDiagram

instance : (r : Rule) → (v : Value) → Decidable (r.Takes v)
  | .range _ _, .number _ => isTrue trivial
  | .length _ _, .text _ => isTrue trivial
  | .range _ _, .text _ => isFalse not_false
  | .length _ _, .number _ => isFalse not_false

/-- A node sets a property to a value if it holds a value of the property's kind at the place of the
property. -/
def Sets (info : Option NodeProperties) (p : Property) (v : Value) : Prop :=
  ∃ held, info = some held ∧ held.get? p.index = some v ∧ p.rule.Takes v

/-- The entries of a node that may have none. -/
def ownEntries (info : Option NodeProperties) : List Entry :=
  (info.map NodeProperties.entries).getD []

namespace Style

/-- Writes an entry of a node over a style. A place outside the order names no property. -/
def withEntry (s : Style) (entry : Entry) : Style :=
  match Property.ofIndex? entry.1 with
  | some p => s.set p entry.2
  | none => s

/-- Writes all entries of a node over a style, in their order. -/
def withEntries (s : Style) (info : Option NodeProperties) : Style :=
  (ownEntries info).foldl withEntry s

/-- A style has what a node sets, and what another style has elsewhere. -/
structure Overlaid (below : Style) (info : Option NodeProperties) (s : Style) : Prop where
  own : ∀ p v, Sets info p v → s.get p = v
  rest : ∀ p, (∀ v, ¬Sets info p v) → s.get p = below.get p

theorem set_of_not_takes (s : Style) {p : Property} {v : Value} (other : ¬p.rule.Takes v) :
    s.set p v = s := by
  cases p <;> cases v <;> first | rfl | exact absurd trivial other

/-- Assignments of values of a wrong kind may be left out. -/
theorem setAll_filter_takes (s : Style) (assignments : List (Property × Value)) :
    s.setAll (assignments.filter fun a => a.1.rule.Takes a.2) = s.setAll assignments := by
  induction assignments generalizing s with
  | nil => rfl
  | cons a later ih =>
    rw [List.filter_cons, setAll_cons]
    by_cases takes : a.1.rule.Takes a.2
    · rw [if_pos (decide_eq_true takes), setAll_cons, ih]
    · rw [if_neg (by simpa using takes), ih, s.set_of_not_takes takes]

theorem setAll_ownAssignments (s : Style) (info : Option NodeProperties) :
    s.setAll (ownAssignments info) = s.withEntries info := by
  cases info with
  | none => rfl
  | some held =>
    change s.setAll (held.entries.filterMap _) = held.entries.foldl withEntry s
    rw [setAll, List.foldl_filterMap]
    congr 1
    funext s entry
    rw [withEntry]
    cases Property.ofIndex? entry.1 <;> rfl

end Style

namespace NodeProperties

theorem pairwise_entries (info : NodeProperties) :
    info.entries.Pairwise fun a b => a.1 < b.1 := by
  refine info.values.ordered_keys_toList.imp ?_
  intro a b before
  exact Nat.compare_eq_lt.mp before

theorem nodup_assignments (info : NodeProperties) : (info.assignments.map Prod.fst).Nodup := by
  rw [List.Nodup, List.pairwise_map, assignments, List.pairwise_filterMap]
  refine info.pairwise_entries.imp ?_
  intro a b before x fromA y fromB same
  obtain ⟨p, namedP, rfl⟩ := Option.map_eq_some_iff.mp fromA
  obtain ⟨q, namedQ, rfl⟩ := Option.map_eq_some_iff.mp fromB
  rw [← Property.index_of_ofIndex? namedP, ← Property.index_of_ofIndex? namedQ] at before
  exact absurd (congrArg Property.index same) (Nat.ne_of_lt before)

end NodeProperties

/-- The entries of a node come in the order of their places. -/
theorem pairwise_ownEntries (info : Option NodeProperties) :
    (ownEntries info).Pairwise fun a b => a.1 < b.1 := by
  cases info with
  | none => exact List.Pairwise.nil
  | some held => exact held.pairwise_entries

theorem nodup_ownAssignments (info : Option NodeProperties) :
    ((ownAssignments info).map Prod.fst).Nodup := by
  cases info with
  | none => exact List.nodup_nil
  | some held => exact held.nodup_assignments

theorem mem_ownAssignments_iff {info : Option NodeProperties} {p : Property} {v : Value} :
    (p, v) ∈ ownAssignments info ↔ ∃ held, info = some held ∧ held.get? p.index = some v := by
  rw [← lastValue?_eq_some_iff (nodup_ownAssignments info)]
  cases info with
  | none => simp [ownAssignments]
  | some held => simp [ownAssignments, held.lastValue?_assignments]

theorem Style.overlaid_withEntries (s : Style) (info : Option NodeProperties) :
    s.Overlaid info (s.withEntries info) := by
  let kept := (ownAssignments info).filter fun a => a.1.rule.Takes a.2
  have mem_kept (p : Property) (v : Value) : (p, v) ∈ kept ↔ Sets info p v := by
    simp only [kept, List.mem_filter, decide_eq_true_eq, mem_ownAssignments_iff, Sets]
    grind
  have distinct : (kept.map Prod.fst).Nodup :=
    (nodup_ownAssignments info).sublist (List.filter_sublist.map Prod.fst)
  have value (p : Property) :
      (s.withEntries info).get p = (lastValue? kept p).getD (s.get p) := by
    rw [← setAll_ownAssignments, ← setAll_filter_takes]
    refine s.get_setAll (fun a member => ?_) p
    exact of_decide_eq_true (List.mem_filter.mp member).2
  constructor
  · intro p v sets
    rw [value, (lastValue?_eq_some_iff distinct).mpr ((mem_kept p v).mpr sets), Option.getD_some]
  · intro p nothing
    rw [value, lastValue?_eq_none fun v member => nothing v ((mem_kept p v).mp member),
      Option.getD_none]

/-- What a node sets on top of another is what it sets on its own exactly if it sets all that the
other one changed. -/
theorem Style.withEntries_withEntries_iff (s : Style) (last info : Option NodeProperties) :
    (s.withEntries last).withEntries info = s.withEntries info ↔
      ∀ p v, Sets last p v → (∀ w, ¬Sets info p w) → v = s.get p := by
  have first := s.overlaid_withEntries last
  have both := (s.withEntries last).overlaid_withEntries info
  have alone := s.overlaid_withEntries info
  constructor
  · intro same p v sets untouched
    rw [← first.own p v sets, ← both.rest p untouched, same, alone.rest p untouched]
  · intro covered
    apply ext_get
    intro p
    by_cases touched : ∃ w, Sets info p w
    · obtain ⟨w, sets⟩ := touched
      rw [both.own p w sets, alone.own p w sets]
    · rw [not_exists] at touched
      rw [both.rest p touched, alone.rest p touched]
      by_cases dirty : ∃ v, Sets last p v
      · obtain ⟨v, sets⟩ := dirty
        rw [first.own p v sets, covered p v sets touched]
      · exact first.rest p (not_exists.mp dirty)

namespace Resolver

/-- A pass that has gone on to several nodes. -/
def after (r : Resolver) (infos : List (Option NodeProperties)) : Resolver :=
  infos.foldl resolve r

theorem overrides_after (r : Resolver) (infos : List (Option NodeProperties)) :
    (r.after infos).overrides = r.overrides := by
  induction infos generalizing r with
  | nil => rfl
  | cons info later ih => exact ih (r.resolve info)

theorem settled_after {r : Resolver} (settled : r.Settled) (infos : List (Option NodeProperties)) :
    (r.after infos).Settled := by
  induction infos generalizing r with
  | nil => exact settled
  | cons info later ih => exact ih (settled_resolve settled info)

theorem view_resolve_after {r : Resolver} (settled : r.Settled)
    (infos : List (Option NodeProperties)) (info : Option NodeProperties) :
    ((r.after infos).resolve info).view = r.overrides.withEntries info := by
  rw [view_resolve (settled_after settled infos), overrides_after, Style.setAll_ownAssignments]

theorem resolveOne_eq (r : Resolver) (info : Option NodeProperties) :
    r.resolveOne info = r.view.withEntries info :=
  r.view.setAll_ownAssignments info

end Resolver

namespace Cascade

/-- In view is what the last of the nodes visited set. -/
theorem view_after_seed (c : Cascade) (infos : List (Option NodeProperties)) :
    (c.seed.after infos).view = c.overrides.withEntries infos.getLast?.join := by
  rcases List.eq_nil_or_concat' infos with rfl | ⟨earlier, last, rfl⟩
  · rfl
  · have next : c.seed.after (earlier ++ [last]) = (c.seed.after earlier).resolve last :=
      List.foldl_concat ..
    rw [next, Resolver.view_resolve_after (Resolver.settled_seed c), List.getLast?_concat]
    rfl

/-- Every node of a pass is seen with its entries written over the style of the whole diagram, in
their order, whatever was in view and whichever nodes came before; the style of the whole diagram
stays as it is. -/
theorem resolves_from_scratch (c : Cascade) :
    (∀ infos, c.seed.styles infos = infos.map c.overrides.withEntries) ∧
      (∀ earlier info,
        ((c.seed.after earlier).resolve info).view = c.overrides.withEntries info ∧
          ((c.seed.after earlier).resolve info).overrides = c.overrides) ∧
      ∀ info, (ownEntries info).Pairwise (fun a b => a.1 < b.1) ∧
        c.overrides.Overlaid info (c.overrides.withEntries info) := by
  refine ⟨fun infos => ?_, fun earlier info => ⟨?_, ?_⟩, fun info => ⟨?_, ?_⟩⟩
  · rw [styles_seed]
    exact List.map_congr_left fun info _ => c.overrides.setAll_ownAssignments info
  · exact Resolver.view_resolve_after (Resolver.settled_seed c) earlier info
  · exact c.seed.overrides_after earlier
  · exact pairwise_ownEntries info
  · exact c.overrides.overlaid_withEntries info

/-- A pass that ends with a single node shows it over what the node before it set. This is the style
of the node on its own exactly if the node sets everything that the one before it changed, as it is
when there was none. -/
theorem resolveOne_over_last (c : Cascade) (earlier : List (Option NodeProperties))
    (info : Option NodeProperties) :
    (c.seed.after earlier).resolveOne info =
        (c.overrides.withEntries earlier.getLast?.join).withEntries info ∧
      ((c.seed.after earlier).resolveOne info = c.overrides.withEntries info ↔
        ∀ p v, Sets earlier.getLast?.join p v → (∀ w, ¬Sets info p w) → v = c.overrides.get p) ∧
      c.seed.resolveOne info = c.overrides.withEntries info := by
  have shown : (c.seed.after earlier).resolveOne info =
      (c.overrides.withEntries earlier.getLast?.join).withEntries info := by
    rw [Resolver.resolveOne_eq, view_after_seed]
  refine ⟨shown, ?_, c.seed.resolveOne_eq info⟩
  rw [shown]
  exact Style.withEntries_withEntries_iff c.overrides earlier.getLast?.join info

/-- A node that sets nothing but its radius. -/
def wideNode : NodeProperties := { node := 1, values := .ofList [(1, Value.number 9)] }

/-- A node without properties that ends a pass may have the radius of the node before it. -/
theorem exists_leftover : ¬∀ (c : Cascade) (earlier : List (Option NodeProperties))
    (info : Option NodeProperties),
    (c.seed.after earlier).resolveOne info = c.overrides.withEntries info := by
  intro fresh
  have same := congrArg Style.nodeRadius (fresh {} [some wideNode] none)
  have left : ((({} : Cascade).seed.after [some wideNode]).resolveOne none).nodeRadius = 9 := by
    decide +kernel
  rw [left] at same
  cases same

end Cascade

end TreeDiagram
