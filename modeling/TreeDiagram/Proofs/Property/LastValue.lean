import Mathlib.Data.List.Nodup
/-!
# Last values

Where assignments are made one after the other, the last one to a key counts.
-/

namespace TreeDiagram

variable {κ ν : Type} [DecidableEq κ]

/-- The value that the last pair with a key has. -/
def lastValue? (pairs : List (κ × ν)) (k : κ) : Option ν :=
  ((pairs.filter fun pair => pair.1 = k).getLast?).map Prod.snd

@[simp] theorem lastValue?_nil (k : κ) : lastValue? ([] : List (κ × ν)) k = none := rfl

theorem lastValue?_append (earlier later : List (κ × ν)) (k : κ) :
    lastValue? (earlier ++ later) k = (lastValue? later k).or (lastValue? earlier k) := by
  unfold lastValue?
  rw [List.filter_append, List.getLast?_append]
  cases (later.filter fun pair => pair.1 = k).getLast? <;> rfl

theorem lastValue?_cons (pair : κ × ν) (later : List (κ × ν)) (k : κ) :
    lastValue? (pair :: later) k =
      (lastValue? later k).or (if pair.1 = k then some pair.2 else none) := by
  rw [← List.singleton_append, lastValue?_append]
  by_cases same : pair.1 = k <;> simp [lastValue?, same]

theorem mem_of_lastValue? {pairs : List (κ × ν)} {k : κ} {v : ν}
    (last : lastValue? pairs k = some v) : (k, v) ∈ pairs := by
  unfold lastValue? at last
  obtain ⟨pair, found, rfl⟩ := Option.map_eq_some_iff.mp last
  obtain ⟨member, same⟩ := List.mem_filter.mp (List.mem_of_getLast? found)
  rw [← of_decide_eq_true same]
  exact member

theorem lastValue?_eq_none {pairs : List (κ × ν)} {k : κ} (absent : ∀ v, (k, v) ∉ pairs) :
    lastValue? pairs k = none := by
  cases last : lastValue? pairs k with
  | none => rfl
  | some v => exact absurd (mem_of_lastValue? last) (absent v)

/-- Where keys are not repeated every pair is the last one with its key. -/
theorem lastValue?_eq_some_iff {pairs : List (κ × ν)} (distinct : (pairs.map Prod.fst).Nodup)
    {k : κ} {v : ν} : lastValue? pairs k = some v ↔ (k, v) ∈ pairs := by
  constructor
  · exact mem_of_lastValue?
  · intro member
    induction pairs with
    | nil => cases member
    | cons pair later ih =>
      obtain ⟨notLater, distinct⟩ := List.nodup_cons.mp distinct
      rw [lastValue?_cons]
      rcases List.mem_cons.mp member with rfl | member
      · rw [lastValue?_eq_none fun w again => notLater (List.mem_map.mpr ⟨(k, w), again, rfl⟩)]
        simp
      · rw [ih distinct member]
        rfl

/-- A key that no other key is mapped to has the same last value after mapping. -/
theorem lastValue?_map {κ' : Type} [DecidableEq κ'] (f : κ → κ') {pairs : List (κ × ν)} {k : κ}
    (only : ∀ pair ∈ pairs, f pair.1 = f k → pair.1 = k) :
    lastValue? (pairs.map fun pair => (f pair.1, pair.2)) (f k) = lastValue? pairs k := by
  induction pairs with
  | nil => rfl
  | cons pair later ih =>
    rw [List.map_cons, lastValue?_cons, lastValue?_cons]
    rw [ih fun other member => only other (List.mem_cons_of_mem _ member)]
    have same : f pair.1 = f k ↔ pair.1 = k :=
      ⟨only pair List.mem_cons_self, congrArg f⟩
    simp only [same]

/-- Leaving pairs out by their keys leaves the other last values as they are. -/
theorem lastValue?_filter (keep : κ → Bool) (pairs : List (κ × ν)) (k : κ) :
    lastValue? (pairs.filter fun pair => keep pair.1) k =
      if keep k then lastValue? pairs k else none := by
  induction pairs with
  | nil => simp
  | cons pair later ih =>
    rw [lastValue?_cons, List.filter_cons]
    by_cases same : pair.1 = k
    · subst same
      by_cases kept : keep pair.1
      · rw [if_pos kept, lastValue?_cons, ih]
        simp [kept]
      · rw [if_neg kept, ih]
        simp [kept]
    · by_cases kept : keep pair.1
      · rw [if_pos kept, lastValue?_cons, ih]
        simp [same]
      · rw [if_neg kept, ih]
        simp [same]

end TreeDiagram
