import TreeDiagram.Property.Cascade
import TreeDiagram.Proofs.Property.Style
/-!
# Passes over nodes

A pass takes back, before each node, what the node before it set. Each node is therefore seen as if
it were the only one: with its own properties set over the style of the whole diagram.
-/

namespace TreeDiagram

namespace Resolver

/-- Apart from the properties touched last, the view is the style of the whole diagram. -/
def Settled (r : Resolver) : Prop :=
  ∀ p, p ∉ r.touched → r.view.get p = r.overrides.get p

theorem settled_seed (c : Cascade) : c.seed.Settled :=
  fun _ _ => rfl

theorem get_takeBack (whole view : Style) (touched : List Property) (p : Property) :
    (touched.foldl (fun s q => s.set q (whole.get q)) view).get p =
      if p ∈ touched then whole.get p else view.get p := by
  induction touched generalizing view with
  | nil => rfl
  | cons q later ih =>
    rw [List.foldl_cons, ih]
    by_cases again : p ∈ later
    · simp [again]
    · by_cases same : p = q
      · subst same
        simp [again, view.get_set_self (whole.takes_get p)]
      · simp [again, same, view.get_set_of_ne (whole.get q) (Ne.symm same)]

theorem rewound_eq {r : Resolver} (settled : r.Settled) : r.rewound = r.overrides := by
  apply Style.ext_get
  intro p
  rw [rewound, get_takeBack]
  by_cases touched : p ∈ r.touched
  · rw [if_pos touched]
  · rw [if_neg touched]
    exact settled p touched

theorem view_resolve {r : Resolver} (settled : r.Settled) (info : Option NodeProperties) :
    (r.resolve info).view = r.overrides.setAll (ownAssignments info) := by
  rw [← rewound_eq settled]
  rfl

theorem settled_resolve {r : Resolver} (settled : r.Settled) (info : Option NodeProperties) :
    (r.resolve info).Settled := by
  intro p untouched
  -- what the node before it touched was taken back, so only its own properties differ
  rw [view_resolve settled]
  exact r.overrides.get_setAll_of_notMem untouched

/-- Every node of a pass has its own properties over the style of the whole diagram. -/
theorem styles_eq {r : Resolver} (settled : r.Settled) (infos : List (Option NodeProperties)) :
    r.styles infos = infos.map fun info => r.overrides.setAll (ownAssignments info) := by
  induction infos generalizing r with
  | nil => rfl
  | cons info later ih =>
    rw [styles, List.map_cons]
    rw [view_resolve settled, ih (settled_resolve settled info)]
    rfl

end Resolver

namespace Cascade

theorem styles_seed (c : Cascade) (infos : List (Option NodeProperties)) :
    c.seed.styles infos = infos.map c.styleOf :=
  Resolver.styles_eq (Resolver.settled_seed c) infos

theorem overrides_setAllGlobal (c : Cascade) (assignments : List (Property × Value)) :
    (c.setAllGlobal assignments).overrides = c.overrides.setAll assignments := by
  induction assignments generalizing c with
  | nil => rfl
  | cons a later ih => exact ih (c.setGlobal a.1 a.2)

theorem view_setAllGlobal (c : Cascade) (assignments : List (Property × Value)) :
    (c.setAllGlobal assignments).view = c.view.setAll assignments := by
  induction assignments generalizing c with
  | nil => rfl
  | cons a later ih => exact ih (c.setGlobal a.1 a.2)

end Cascade

end TreeDiagram
