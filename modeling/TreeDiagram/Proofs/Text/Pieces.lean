import Mathlib.Data.List.DropRight
import TreeDiagram.Proofs.Text.Runs
/-!
# The pieces of a text

A class of characters divides a text into pieces: runs of the class that cannot be made longer where
they stand, and single characters of no such run. No piece begins inside of another one, so what is
found in a text is what its first piece is and what is found behind that.
-/

namespace TreeDiagram

variable {p : Char → Bool} {before text behind front rest : List Char}

/-- A run of characters of a class that does not go on behind it, and does not begin before it. -/
structure MaximalRun (p : Char → Bool) (before run behind : List Char) : Prop
    extends IsRun p run behind where
  notEmpty : run ≠ []
  begins : ∀ c, before.getLast? = some c → p c = false

/-- A text between two others is a piece: one character that is not of the class, or a maximal run
of the class. -/
inductive Piece (p : Char → Bool) (before : List Char) : List Char → List Char → Prop
  | single {c : Char} (outside : p c = false) (behind : List Char) : Piece p before [c] behind
  | run {text behind : List Char} (maximal : MaximalRun p before text behind) :
      Piece p before text behind

/-- A second text does not go on with a run with which the first one ends. -/
def Apart (p : Char → Bool) (before behind : List Char) : Prop :=
  ∀ c d, before.getLast? = some c → behind.head? = some d → p c = true → p d = false

/-- Somewhere in a text behind another one stands what is sought. -/
def Occurs (P : List Char → List Char → List Char → Prop) (front cs : List Char) : Prop :=
  ∃ skipped text behind, cs = skipped ++ (text ++ behind) ∧ P (front ++ skipped) text behind

/-- A text is divided in one way only where so many bytes stand in front. -/
theorem append_inj_of_byteLength {as bs as' bs' : List Char} (whole : as ++ bs = as' ++ bs')
    (same : byteLength as = byteLength as') : as = as' ∧ bs = bs' := by
  have nothing {front between : List Char}
      (length : byteLength (front ++ between) = byteLength front) : between = [] := by
    cases between with
    | nil => rfl
    | cons c between =>
      have positive := c.utf8Size_pos
      rw [byteLength_append, byteLength_cons] at length
      omega
  rcases List.append_eq_append_iff.mp whole with ⟨between, rfl, rest⟩ | ⟨between, rfl, rest⟩
  · cases nothing same.symm
    exact ⟨(List.append_nil _).symm, rest⟩
  · cases nothing same
    exact ⟨List.append_nil _, rest.symm⟩

theorem MaximalRun.append_ne_cons {c : Char} (maximal : MaximalRun p before text behind)
    (outside : p c = false) (rest cs : List Char) : text ++ rest ≠ c :: cs := by
  obtain ⟨d, text, rfl⟩ := List.exists_cons_of_ne_nil maximal.notEmpty
  intro same
  cases same
  rw [maximal.inside c List.mem_cons_self] at outside
  cases outside

theorem MaximalRun.not_single {c : Char} (maximal : MaximalRun p before text behind)
    (outside : p c = false) : text ≠ [c] := by
  rw [← List.append_nil text]
  exact maximal.append_ne_cons outside [] []

namespace Piece

theorem notEmpty (piece : Piece p before text behind) : text ≠ [] := by
  cases piece with
  | single => exact List.cons_ne_nil _ _
  | run maximal => exact maximal.notEmpty

theorem apart (piece : Piece p before text behind) : Apart p (before ++ text) behind := by
  intro c d last first inside
  cases piece with
  | single outside =>
    rw [List.getLast?_concat, Option.some.injEq] at last
    rw [last, inside] at outside
    cases outside
  | run maximal => exact maximal.ends d first

theorem maximal_or_single (piece : Piece p before text behind) :
    MaximalRun p before text behind ∨ ∃ c, text = [c] ∧ p c = false := by
  cases piece with
  | single outside => exact .inr ⟨_, rfl, outside⟩
  | run maximal => exact .inl maximal

/-- What stands at the front of a text is one piece only. -/
theorem unique {text' behind' : List Char} (piece : Piece p before text behind)
    (piece' : Piece p before text' behind') (same : text ++ behind = text' ++ behind') :
    text = text' ∧ behind = behind' := by
  rcases piece.maximal_or_single with maximal | ⟨c, rfl, outside⟩
  · rcases piece'.maximal_or_single with maximal' | ⟨c', rfl, outside'⟩
    · refine ⟨?_, ?_⟩
      · rw [← maximal.takeWhile_eq, same, maximal'.takeWhile_eq]
      · rw [← maximal.dropWhile_eq, same, maximal'.dropWhile_eq]
    · exact absurd same (maximal.append_ne_cons outside' _ _)
  · rcases piece'.maximal_or_single with maximal' | ⟨c', rfl, outside'⟩
    · exact absurd same.symm (maximal'.append_ne_cons outside _ _)
    · cases same
      exact ⟨rfl, rfl⟩

/-- No piece begins inside of another one. -/
theorem not_inside {skipped left : List Char} (piece : Piece p front (skipped ++ left) rest)
    (moved : skipped ≠ []) (inside : left ≠ []) (same : text ++ behind = left ++ rest) :
    ¬Piece p (front ++ skipped) text behind := by
  intro other
  obtain ⟨c, left, rfl⟩ := List.exists_cons_of_ne_nil inside
  obtain ⟨d, text, rfl⟩ := List.exists_cons_of_ne_nil other.notEmpty
  have first : d = c := (List.cons.inj same).1
  have long : ∀ e, skipped ++ c :: left ≠ [e] := by
    intro e single
    have length := congrArg List.length single
    have front := List.length_pos_iff.mpr moved
    simp only [List.length_append, List.length_cons, List.length_nil] at length
    omega
  rcases piece.maximal_or_single with maximal | ⟨e, single, -⟩
  · have last : p (skipped.getLast moved) = true :=
      maximal.inside _ (List.mem_append_left _ (List.getLast_mem moved))
    have here : p c = true := maximal.inside c (by simp)
    rcases other.maximal_or_single with maximal' | ⟨e, single, outside⟩
    · have stops := maximal'.begins (skipped.getLast moved) (by
        rw [List.getLast?_append_of_ne_nil front moved, List.getLast?_eq_some_getLast moved])
      simp [last] at stops
    · cases single
      simp [first, here] at outside
  · exact long e single

/-- Every character of a text is in a piece of the text. -/
theorem exists_of_mem {source : List Char} {c : Char} (whole : source = before ++ c :: behind) :
    ∃ front text rest, source = front ++ (text ++ rest) ∧ Piece p front text rest ∧ c ∈ text ∧
      byteLength front ≤ byteLength before ∧
      byteLength before + c.utf8Size ≤ byteLength front + byteLength text := by
  cases inside : p c with
  | false =>
    exact ⟨before, [c], behind, whole, .single inside behind, List.mem_singleton_self c, le_rfl,
      by simp⟩
  | true =>
    have split := List.rdropWhile_append_rtakeWhile (p := p) (l := before)
    refine ⟨before.rdropWhile p, before.rtakeWhile p ++ c :: behind.takeWhile p,
      behind.dropWhile p, ?_, .run ⟨⟨?_, ?_⟩, ?_, ?_⟩, by simp, ?_, ?_⟩
    · rw [List.append_assoc, List.cons_append, List.takeWhile_append_dropWhile, ← List.append_assoc,
        split, whole]
    · intro d member
      rcases List.mem_append.mp member with early | later
      · exact List.mem_rtakeWhile_imp early
      · rcases List.mem_cons.mp later with rfl | later
        · exact inside
        · exact List.mem_takeWhile_imp later
    · exact (isRun_takeWhile p behind).ends
    · exact List.append_ne_nil_of_right_ne_nil _ (List.cons_ne_nil _ _)
    · intro d last
      have some_ : before.rdropWhile p ≠ [] := by
        rintro nothing
        rw [nothing] at last
        cases last
      rw [List.getLast?_eq_some_getLast some_, Option.some.injEq] at last
      have stops := List.rdropWhile_last_not p before some_
      rw [last] at stops
      exact Bool.eq_false_iff.mpr stops
    · conv_rhs => rw [← split, byteLength_append]
      exact Nat.le_add_right _ _
    · conv_lhs => rw [← split, byteLength_append]
      simp only [byteLength_append, byteLength_cons]
      omega

end Piece

namespace Occurs

variable {P : List Char → List Char → List Char → Prop}

/-- What is found in a text is its first piece, or found behind that. -/
theorem append_iff (pieces : ∀ {before text behind}, P before text behind →
    Piece p before text behind) (piece : Piece p front text rest) :
    Occurs P front (text ++ rest) ↔ P front text rest ∨ Occurs P (front ++ text) rest := by
  constructor
  · rintro ⟨skipped, text', behind, whole, holds⟩
    rcases List.append_eq_append_iff.mp whole with ⟨later, rfl, left⟩ | ⟨left, rfl, same⟩
    · rw [← List.append_assoc] at holds
      exact .inr ⟨later, text', behind, left, holds⟩
    · by_cases ended : left = []
      · subst ended
        rw [List.append_nil]
        exact .inr ⟨[], text', behind, same.symm, by rwa [List.append_nil]⟩
      · by_cases moved : skipped = []
        · subst moved
          rw [List.append_nil] at holds
          rw [List.nil_append] at piece ⊢
          obtain ⟨rfl, rfl⟩ := piece.unique (pieces holds) same.symm
          exact .inl holds
        · exact absurd (pieces holds) (piece.not_inside moved ended same)
  · rintro (holds | ⟨skipped, text', behind, rfl, holds⟩)
    · exact ⟨[], text, rest, rfl, by rwa [List.append_nil]⟩
    · refine ⟨text ++ skipped, text', behind, (List.append_assoc ..).symm, ?_⟩
      rwa [← List.append_assoc]

theorem not_nil (pieces : ∀ {before text behind}, P before text behind →
    Piece p before text behind) : ¬Occurs P front [] := by
  rintro ⟨skipped, text, behind, whole, holds⟩
  have nothing := List.append_eq_nil_iff.mp (List.append_eq_nil_iff.mp whole.symm).2
  exact (pieces holds).notEmpty nothing.1

end Occurs

end TreeDiagram
