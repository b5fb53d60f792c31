import TreeDiagram.Proofs.Text.Lines
/-!
# Lines without their places

What the lines of an input say, and inputs from which lines are deleted. A line that is deleted is
gone from what is said, and the other lines say what they said before, in the same order.
-/

namespace TreeDiagram

/-- What a line of an input says, unless it is blank or a comment. -/
def saidText? (raw : List Char) : Option (List Char) :=
  let line := SourceLine.trimStart ⟨0, raw⟩
  if line.isSilent then none else some line.trimEnd.text

/-- What the lines of an input say, in their order. -/
def saidLines (source : String) : List (List Char) :=
  (significantLines source.toList).map SourceLine.text

theorem saidText?_text (line : SourceLine) : saidText? line.text =
    if line.trimStart.isSilent then none else some line.trimStart.trimEnd.text := rfl

theorem saidLines_eq (source : String) :
    saidLines source = (source.toList.splitOn '\n').filterMap saidText? := by
  have text (line : SourceLine) : (if !line.trimStart.isSilent then
      some line.trimStart.trimEnd.text else none) = saidText? line.text := by
    rw [saidText?_text]
    cases line.trimStart.isSilent <;> rfl
  rw [saidLines, significantLines_eq, List.map_map, ← List.filterMap_eq_map, List.filterMap_filter,
    ← map_text_splitLines 0, List.filterMap_map]
  exact List.filterMap_congr fun line _ => text line

/-- The input without the lines that say something of a kind. -/
def withoutLines (kind : List Char → Bool) (source : String) : String :=
  String.ofList (['\n'].intercalate
    ((source.toList.splitOn '\n').filter fun raw => !(saidText? raw).any kind))

theorem newline_notMem_of_mem_splitOn {cs raw : List Char} (member : raw ∈ cs.splitOn '\n') :
    '\n' ∉ raw := by
  rw [← map_text_splitLines 0] at member
  obtain ⟨line, inside, rfl⟩ := List.mem_map.mp member
  exact newline_notMem_of_mem_splitLines inside

/-- Lines that are joined to an input are its lines again. An input without lines is a blank line.
-/
theorem filterMap_splitOn_intercalate {raws : List (List Char)} (whole : ∀ raw ∈ raws, '\n' ∉ raw) :
    ((['\n'].intercalate raws).splitOn '\n').filterMap saidText? = raws.filterMap saidText? := by
  cases raws with
  | nil => rfl
  | cons raw later => rw [List.splitOn_intercalate '\n' whole (List.cons_ne_nil raw later)]

theorem saidLines_withoutLines (kind : List Char → Bool) (source : String) :
    saidLines (withoutLines kind source) = (saidLines source).filter fun said => !kind said := by
  have whole : ∀ raw ∈ (source.toList.splitOn '\n').filter fun raw => !(saidText? raw).any kind,
      '\n' ∉ raw := fun raw member => newline_notMem_of_mem_splitOn (List.mem_of_mem_filter member)
  rw [saidLines_eq, saidLines_eq, withoutLines, String.toList_ofList,
    filterMap_splitOn_intercalate whole, List.filterMap_filter, List.filter_filterMap]
  refine List.filterMap_congr fun raw _ => ?_
  cases said : saidText? raw with
  | none => simp
  | some text => by_cases gone : kind text = true <;> simp [Option.filter, gone]

end TreeDiagram
