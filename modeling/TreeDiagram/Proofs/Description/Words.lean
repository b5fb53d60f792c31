import Mathlib.Data.List.Nodup
import TreeDiagram.Proofs.Description.Offence
import TreeDiagram.Proofs.Description.Writing
/-!
# The words of a text

The words that a text splits into stand one behind the other, none of them is empty, and every label
among them can be written. So each of them, and the end of the text, has a place of its own.
-/

namespace TreeDiagram

namespace Lexeme

/-- Of two words the first one ends before the second one begins. -/
def Before (w later : Lexeme) : Prop :=
  w.span.stop ≤ later.span.start

/-- A word that takes some bytes, and if it is a label can be written. -/
structure Proper (w : Lexeme) : Prop where
  notEmpty : w.span.start < w.span.stop
  writable : ∀ label, w.token = .label label → Writable label

end Lexeme

theorem writable_label {c : Char} {rest : List Char} (inLabel : isLabelChar c = true)
    (fits : ¬maxLabelLength < (c :: rest.takeWhile isLabelChar).length) :
    Writable (String.ofList (c :: rest.takeWhile isLabelChar)) := by
  refine ⟨?_, ?_, ?_⟩ <;> rw [String.toList_ofList]
  · exact List.cons_ne_nil _ _
  · intro d member
    rcases List.mem_cons.mp member with rfl | later
    · exact inLabel
    · exact List.mem_takeWhile_imp later
  · exact Nat.le_of_not_lt fits

theorem proper_of_lexFrom {pos : Nat} {cs : List Char} {read words : List Lexeme}
    (h : lexFrom pos cs read = .ok words) : ∃ new, words = read.reverse ++ new ∧
      (∀ w ∈ new, pos ≤ w.span.start) ∧ (∀ w ∈ new, w.Proper) ∧ new.Pairwise Lexeme.Before := by
  -- a word that is read here stands in front of those that are read behind it
  have step : ∀ {pos : Nat} {read new : List Lexeme} {w : Lexeme}, w.span.start = pos →
      w.Proper → words = (w :: read).reverse ++ new →
      (∀ w' ∈ new, w.span.stop ≤ w'.span.start) → (∀ w' ∈ new, w'.Proper) →
      new.Pairwise Lexeme.Before → ∃ new, words = read.reverse ++ new ∧
        (∀ w ∈ new, pos ≤ w.span.start) ∧ (∀ w ∈ new, w.Proper) ∧
          new.Pairwise Lexeme.Before := by
    intro pos read new w start proper split behind others order
    refine ⟨w :: new, by rw [split]; simp, ?_, ?_, List.pairwise_cons.mpr ⟨behind, order⟩⟩
    · intro w' member
      rcases List.mem_cons.mp member with rfl | later
      · exact start.ge
      · exact (start ▸ proper.notEmpty.le).trans (behind w' later)
    · intro w' member
      rcases List.mem_cons.mp member with rfl | later
      · exact proper
      · exact others w' later
  fun_induction lexFrom pos cs read with
  | case1 =>
    cases h
    exact ⟨[], by simp, by simp, by simp, .nil⟩
  | case2 pos read c rest blank ih =>
    obtain ⟨new, split, behind, proper, order⟩ := ih h
    exact ⟨new, split, fun w member => (Nat.le_succ pos).trans (behind w member), proper, order⟩
  | case3 pos read c rest visible token mark ih =>
    obtain ⟨new, split, behind, others, order⟩ := ih h
    have proper : Lexeme.Proper ⟨token, ⟨pos, pos + 1⟩⟩ := by
      refine ⟨Nat.lt_succ_self pos, ?_⟩
      rintro label rfl
      unfold punctuation? at mark
      split at mark
      · cases mark
      · split at mark
        · cases mark
        · split at mark <;> cases mark
    exact step rfl proper split behind others order
  | case4 => cases h
  | case5 pos read c rest visible noMark inLabel text stop fits ih =>
    obtain ⟨new, split, behind, others, order⟩ := ih h
    have proper : Lexeme.Proper ⟨.label (String.ofList text), ⟨pos, stop⟩⟩ := by
      constructor
      · exact Nat.lt_add_of_pos_right (Nat.succ_pos _)
      · rintro label same
        cases same
        exact writable_label inLabel fits
    exact step rfl proper split behind others order
  | case6 => cases h

variable {cs : List Char} {words : List Lexeme}

theorem proper_of_lex (split : lex cs = .ok words) : ∀ w ∈ words, w.Proper := by
  obtain ⟨new, rfl, -, proper, -⟩ := proper_of_lexFrom split
  exact proper

theorem pairwise_of_lex (split : lex cs = .ok words) : words.Pairwise Lexeme.Before := by
  obtain ⟨new, rfl, -, -, order⟩ := proper_of_lexFrom split
  exact order

namespace Terminal

/-- No two words stand at the same place, nor does one stand at the end. -/
theorem nodup_spans (split : lex cs = .ok words) :
    ((ofLexemes words (byteLength cs)).map span).Nodup := by
  rw [ofLexemes, List.map_append, List.map_map, List.nodup_append]
  refine ⟨?_, List.nodup_singleton _, ?_⟩
  · rw [List.Nodup, List.pairwise_map]
    refine (pairwise_of_lex split).imp_of_mem ?_
    intro w later inWords _ before same
    have start := congrArg Span.start (show w.span = later.span from same)
    have notEmpty := (proper_of_lex split w inWords).notEmpty
    exact absurd (notEmpty.trans_le before) (start ▸ Nat.lt_irrefl _)
  · intro place inWords atEnd member same
    obtain ⟨w, isWord, rfl⟩ := List.mem_map.mp inWords
    rw [List.map_singleton, List.mem_singleton] at member
    have shows := shows_of_ofLexemes split ⟨some w.token, w.span⟩
      (List.mem_append_left _ (List.mem_map_of_mem isWord))
    have stop := shows.bounds.2
    have notEmpty := (proper_of_lex split w isWord).notEmpty
    have start := congrArg Span.start (show w.span = ⟨byteLength cs, byteLength cs⟩ from
      same.trans member)
    simp only [Cursor.start] at stop start
    omega

end Terminal

end TreeDiagram
