import Mathlib.Data.List.Basic
import TreeDiagram.Command.Directory
import TreeDiagram.Proofs.Outcome
/-!
# What a written file leaves as it was

A path is followed through directories only, so the place it leads to lies in directories that are
there. A text that is put at such a place makes no new directory: what is at every other place stays
as it was.
-/

namespace TreeDiagram.Command

namespace Place

theorem isInside_iff {inner outer : Place} : inner.isInside outer = true ↔
    inner.start = outer.start ∧ outer.names <+: inner.names ∧ inner ≠ outer := by
  rw [isInside, Bool.and_eq_true, Bool.and_eq_true, beq_iff_eq, List.isPrefixOf_iff_prefix,
    bne_iff_ne, and_assoc]

/-- Nothing is around the place where names begin to lead. -/
theorem not_isInside_begin (start : Start) (around : Place) :
    (Place.mk start []).isInside around = false := by
  rw [Bool.eq_false_iff]
  intro inside
  obtain ⟨same, before, apart⟩ := isInside_iff.mp inside
  apply apart
  rw [Place.mk.injEq]
  exact ⟨same, (List.prefix_nil.mp before).symm⟩

/-- What is around the directory around a place is around the place. -/
theorem isInside_of_outer {place around : Place} (inside : place.outer.isInside around = true) :
    place.isInside around = true := by
  obtain ⟨start, names⟩ := place
  cases names with
  | nil =>
    cases start with
    | top => exact inside
    | above levels => exact absurd inside (by rw [outer, not_isInside_begin]; decide)
  | cons name names =>
    obtain ⟨same, before, -⟩ := isInside_iff.mp inside
    refine isInside_iff.mpr ⟨same, before.trans (List.dropLast_prefix _), ?_⟩
    rintro rfl
    have shorter := before.length_le
    rw [outer, List.length_dropLast, List.length_cons] at shorter
    omega

/-- Around a name in a place are the place and what is around it. -/
theorem eq_or_isInside_of_append {start : Start} {names : List String} {name : String}
    {around : Place} (inside : (Place.mk start (names ++ [name])).isInside around = true) :
    around = ⟨start, names⟩ ∨ (Place.mk start names).isInside around = true := by
  obtain ⟨same, before, apart⟩ := isInside_iff.mp inside
  obtain ⟨start', names'⟩ := around
  change start = start' at same
  subst same
  rcases List.prefix_concat_iff.mp before with whole | before
  · exact absurd (congrArg (Place.mk start) whole.symm) apart
  · by_cases here : names' = names
    · exact .inl (congrArg (Place.mk start) here)
    · refine .inr (isInside_iff.mpr ⟨rfl, before, ?_⟩)
      intro same
      exact here (congrArg Place.names same).symm

end Place

namespace Directory

/-- Everything around a place is a directory. -/
def Leads (d : Directory) (place : Place) : Prop :=
  ∀ around, place.isInside around = true → d.find? around = some .directory

variable {d : Directory} {place last : Place}

theorem leads_begin (d : Directory) (start : Start) : d.Leads ⟨start, []⟩ := by
  intro around inside
  rw [Place.not_isInside_begin] at inside
  cases inside

theorem Leads.step {name : String} {next : Place} (leads : d.Leads place)
    (here : d.find? place = some .directory) (step : place.step name = .ok next) :
    d.Leads next := by
  rw [Place.step] at step
  split at step
  · cases step
    exact leads
  · split at step
    · cases step
      exact fun around inside => leads around (Place.isInside_of_outer inside)
    · split at step
      · cases step
        intro around inside
        rcases Place.eq_or_isInside_of_append inside with rfl | inside
        · exact here
        · exact leads around inside
      · cases step

/-- A path is followed through directories. -/
theorem Leads.follow {names : List String} (leads : d.Leads place)
    (followed : d.follow place names = .ok last) : d.Leads last := by
  induction names generalizing place with
  | nil =>
    cases followed
    exact leads
  | cons name names ih =>
    rw [Directory.follow] at followed
    split at followed
    · next here =>
      obtain ⟨next, step, rest⟩ := bind_eq_ok.mp followed
      exact ih (leads.step here step) rest
    · cases followed
    · cases followed

theorem leads_of_locate {path : String} {pieces : List String}
    (located : d.locate path pieces = .ok place) : d.Leads place := by
  rw [locate] at located
  split at located
  · cases located
  · split at located
    · cases located
    · exact (d.leads_begin _).follow located

/-- A text goes to a file only where its path leads through directories. -/
theorem leads_of_target {path : String} (target : d.target path = .ok (.file place)) :
    d.Leads place := by
  obtain ⟨-, -, target⟩ := bind_eq_ok.mp target
  split at target
  · cases target
  · obtain ⟨found, located, target⟩ := bind_eq_ok.mp target
    split at target
    · cases target
    · cases target
    · cases target
      exact leads_of_locate located

theorem find?_put_self (d : Directory) (place : Place) (text : String) :
    (d.put place text).find? place = some (.file text) := by
  rw [find?, put, List.lookup_cons_self]

theorem lookup_filter_ne {files : List (Place × String)} {place other : Place}
    (differ : other ≠ place) :
    (files.filter fun file => file.1 != place).lookup other = files.lookup other := by
  induction files with
  | nil => rfl
  | cons file files ih =>
    obtain ⟨name, text⟩ := file
    by_cases here : name = place
    · rw [List.filter_cons_of_neg (by simp [here]), ih, here, List.lookup_cons,
        beq_false_of_ne differ]
    · rw [List.filter_cons_of_pos (by simp [here]), List.lookup_cons, List.lookup_cons, ih]

theorem find?_put_of_ne (leads : d.Leads place) (text : String) {other : Place}
    (differ : other ≠ place) : (d.put place text).find? other = d.find? other := by
  have files : (d.put place text).files.lookup other = d.files.lookup other := by
    rw [put, List.lookup_cons, beq_false_of_ne differ]
    exact lookup_filter_ne differ
  by_cases around : place.isInside other = true
  · -- the place around the file has been a directory before
    have before := leads other around
    have inside : ((d.put place text).files.any fun file => file.1.isInside other) = true := by
      rw [put, List.any_cons, around, Bool.true_or]
    rw [before]
    rw [find?] at before ⊢
    rw [files, inside, Bool.or_true, if_pos rfl]
    split at before
    · cases before
    · cases before
    · rfl
  · have inside : ((d.put place text).files.any fun file => file.1.isInside other) =
        d.files.any fun file => file.1.isInside other := by
      rw [put, List.any_cons, Bool.eq_false_iff.mpr around, Bool.false_or, List.any_filter]
      refine congrArg _ (funext fun file => ?_)
      by_cases same : file.1 = place
      · rw [same, Bool.eq_false_iff.mpr around, Bool.and_false]
      · rw [bne_iff_ne.mpr same, Bool.true_and]
    rw [find?, find?, files, inside]

/-- A text that is put where a path leads is at that place, and all else is as it was. -/
theorem find?_put (leads : d.Leads place) (text : String) (other : Place) :
    (d.put place text).find? other =
      if other = place then some (.file text) else d.find? other := by
  split
  · next same =>
    rw [same]
    exact d.find?_put_self place text
  · next differ => exact find?_put_of_ne leads text differ

end Directory

end TreeDiagram.Command
