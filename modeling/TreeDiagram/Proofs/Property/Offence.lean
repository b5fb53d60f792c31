import TreeDiagram.Proofs.Offence
import TreeDiagram.Proofs.Property.Acceptance
/-!
# Where property lines go wrong

Whatever stops the scanning of a line is located in the line, at just the piece that the error
names.
-/

namespace TreeDiagram

open ParseError

namespace Line

variable {c : Cursor} {e : ParseError}

theorem locatedIn_unexpected (due : LineItem) (c : Cursor) : (unexpected due c).LocatedIn c := by
  unfold unexpected
  split
  · exact locatedIn_of_passes (.refl c) rfl
  · next x rest whole =>
    have across : c.Passes [x] ⟨c.pos + x.utf8Size, rest⟩ := ⟨whole, by simp⟩
    exact locatedIn_of_passes across rfl

theorem locatedIn_of_takeRun {p : Char → Bool} (h : takeRun p c = .error e) : e.LocatedIn c := by
  unfold takeRun at h
  dsimp only at h
  split at h
  · next long =>
    cases h
    exact locatedIn_of_passes (c.passes_span p) ⟨rfl, long⟩
  · cases h

theorem locatedIn_of_scanNumber (h : scanNumber c = .error e) : e.LocatedIn c := by
  have passedMark := passes_numeralMark c
  have marked := numeralMark_cases c
  unfold scanNumber at h
  generalize numeralMark c = found at h passedMark marked
  obtain ⟨mark, behindMark⟩ := found
  rcases bind_eq_error.mp h with failed | ⟨⟨digits, next⟩, run, failed⟩
  · exact (locatedIn_of_takeRun failed).of_passes passedMark
  · obtain ⟨passed, isRun, -⟩ := takeRun_spec run
    have across := passedMark.trans passed
    dsimp only at failed
    split at failed
    · cases failed
      exact (locatedIn_unexpected .number next).of_passes across
    · split at failed
      · next long =>
        cases failed
        exact locatedIn_of_passes across ⟨byteLength_number marked isRun.inside, long⟩
      · cases failed

theorem locatedIn_of_scanText (h : scanText c = .error e) : e.LocatedIn c := by
  unfold scanText at h
  split at h
  · next opened quote =>
    have opens := Cursor.passes_eat? quote
    rcases bind_eq_error.mp h with failed | ⟨⟨chars, closing⟩, run, failed⟩
    · exact (locatedIn_of_takeRun failed).of_passes opens
    · obtain ⟨passed, -⟩ := takeRun_spec run
      dsimp only at failed
      split at failed
      · cases failed
      · cases failed
        exact locatedIn_of_passes (opens.trans passed) rfl
  · rcases bind_eq_error.mp h with failed | ⟨⟨chars, next⟩, run, failed⟩
    · exact locatedIn_of_takeRun failed
    · obtain ⟨passed, -⟩ := takeRun_spec run
      dsimp only at failed
      split at failed
      · cases failed
        exact (locatedIn_unexpected .value next).of_passes passed
      · cases failed

theorem locatedIn_of_scanValue {rule : Rule} (h : scanValue rule c = .error e) :
    e.LocatedIn c := by
  cases rule with
  | range => exact locatedIn_of_scanNumber h
  | length => exact locatedIn_of_scanText h

theorem locatedIn_of_scanPair (h : scanPair c = .error e) : e.LocatedIn c := by
  unfold scanPair at h
  rcases bind_eq_error.mp h with failed | ⟨⟨name, behindName⟩, run, failed⟩
  · exact locatedIn_of_takeRun failed
  · obtain ⟨overName, -⟩ := takeRun_spec run
    obtain ⟨blanks, -, overBlanks⟩ := behindName.passes_skipBlanks
    dsimp only at failed
    split at failed
    · cases failed
      exact (locatedIn_unexpected .propertyName behindName).of_passes overName
    · split at failed
      · cases failed
        exact locatedIn_of_passes overName String.toList_ofList.symm
      · next property named =>
        have front := overName.trans overBlanks
        split at failed
        · cases failed
          exact (locatedIn_unexpected .equals behindName.skipBlanks).of_passes front
        · next behindEquals equals =>
          obtain ⟨blanks', -, overBlanks'⟩ := behindEquals.passes_skipBlanks
          have sign := front.trans ((Cursor.passes_eat? equals).trans overBlanks')
          rcases bind_eq_error.mp failed with refused | ⟨⟨raw, next⟩, value, invalid⟩
          · exact (locatedIn_of_scanValue refused).of_passes sign
          · obtain ⟨-, -, -, -, shows⟩ := scanValue_sound value
            dsimp only at invalid
            split at invalid
            · cases invalid
              exact ⟨raw.chars, shows.of_passes sign, String.toList_ofList.symm⟩
            · cases invalid

theorem locatedIn_of_scanPairs (h : (scanPairs c).2 = .error e) : e.LocatedIn c := by
  fun_induction scanPairs c with
  | case1 c e' failed =>
    cases h
    obtain ⟨blanks, -, front⟩ := c.passes_skipBlanks
    exact (locatedIn_of_scanPair failed).of_passes front
  | case2 => cases h
  | case3 c pair next scanned =>
    cases h
    obtain ⟨blanks, written, gap, -, -, across, -⟩ := exists_passes_skipSeparator scanned
    exact (locatedIn_unexpected .rightBracket _).of_passes across
  | case4 c pair next scanned behind opened inside shorter more ih =>
    obtain ⟨blanks, written, gap, -, -, across, -⟩ := exists_passes_skipSeparator scanned
    exact (ih h).of_passes across

theorem locatedIn_of_scanScope (h : scanScope c = .error e) : e.LocatedIn c := by
  unfold scanScope at h
  split at h
  · cases h
    exact locatedIn_unexpected .scope c
  · split at h
    · rcases bind_eq_error.mp h with failed | ⟨⟨digits, next⟩, run, failed⟩
      · exact locatedIn_of_takeRun failed
      · obtain ⟨passed, -⟩ := takeRun_spec run
        dsimp only at failed
        split at failed
        · cases failed
        · cases failed
          exact locatedIn_of_passes passed String.toList_ofList.symm
    · split at h
      · cases h
      · cases h
        exact locatedIn_unexpected .scope c

theorem locatedIn_of_scanTail (h : scanTail c = .error e) : e.LocatedIn c := by
  obtain ⟨gap, -, passed⟩ := c.passes_skipSeparator
  unfold scanTail at h
  dsimp only at h
  split at h
  · cases h
  · split at h
    · cases h
    · cases h
      exact (locatedIn_unexpected .lineEnd c.skipSeparator).of_passes passed

theorem locatedIn_of_scanBody {scope : LineScope} (h : (scanBody scope c).2 = .error e) :
    e.LocatedIn c := by
  obtain ⟨blanks, -, passed⟩ := c.passes_skipBlanks
  unfold scanBody at h
  dsimp only at h
  split at h
  · cases h
  · split at h
    · cases h
      exact (locatedIn_unexpected .leftBracket c.skipBlanks).of_passes passed
    · next opened bracket =>
      have front := passed.trans (Cursor.passes_eat? bracket)
      rcases bind_eq_error.mp h with failed | ⟨closed, ended, failed⟩
      · exact (locatedIn_of_scanPairs failed).of_passes front
      · obtain ⟨-, run, inside⟩ := scanPairs_sound ended
        exact (locatedIn_of_scanTail failed).of_passes (front.trans inside)

end Line

/-- What a line is rejected for is located in the line. -/
theorem locatedIn_of_scanLine {line : List Char} {e : ParseError} (h : scanLine line = .error e) :
    e.LocatedIn (Cursor.start line) := by
  obtain ⟨blanks, -, front⟩ := (Cursor.start line).passes_skipBlanks
  rcases bind_eq_error.mp h with failed | ⟨⟨scope, pairs, ending⟩, all, failed⟩
  · exact (Line.locatedIn_of_scanScope (map_eq_error.mp failed)).of_passes front
  · obtain ⟨⟨scope', c⟩, start, same⟩ := map_eq_ok.mp all
    obtain ⟨rfl, body⟩ := Prod.mk.inj same
    have reach : ∃ run, (Cursor.start line).skipBlanks.Passes run c := by
      rcases Line.scanScope_sound start with ⟨_, digits, -, passed, -⟩ | ⟨-, rfl⟩
      · exact ⟨digits, passed⟩
      · exact ⟨[], .refl _⟩
    obtain ⟨run, passed⟩ := reach
    rcases bind_eq_error.mp failed with refused | ⟨_, _, impossible⟩
    · have inBody : (Line.scanBody scope' c).2 = .error e := by
        rw [body]
        exact refused
      exact (Line.locatedIn_of_scanBody inBody).of_passes (front.trans passed)
    · cases impossible

end TreeDiagram
