import TreeDiagram.Text.Letter
import TreeDiagram.Text.Span
/-!
A place in a text together with what is left of the text from there on.

A cursor only ever moves over whole characters, so its byte position is the start of a character
or the end of the text.
-/

namespace TreeDiagram

/-- A byte position and the characters from there on. -/
structure Cursor where
  pos : Nat
  rest : List Char
  deriving DecidableEq, Repr

namespace Cursor

/-- The start of a text. -/
def start (cs : List Char) : Cursor := ⟨0, cs⟩

/-- Whether the text is used up. -/
def atEnd (c : Cursor) : Bool := c.rest.isEmpty

/-- The longest run of characters with a property, and the place behind it. -/
def span (p : Char → Bool) (c : Cursor) : List Char × Cursor :=
  let run := c.rest.takeWhile p
  (run, ⟨c.pos + byteLength run, c.rest.dropWhile p⟩)

/-- The first place that is not blank. -/
def skipBlanks (c : Cursor) : Cursor :=
  (c.span isBlank).2

/-- The place behind a given character, if that character comes next. -/
def eat? (x : Char) (c : Cursor) : Option Cursor :=
  match c.rest with
  | [] => none
  | y :: rest => if x = y then some ⟨c.pos + y.utf8Size, rest⟩ else none

/-- The place behind at most one separator and the blanks around it. -/
def skipSeparator (c : Cursor) : Cursor :=
  let c := c.skipBlanks
  match c.rest with
  | [] => c
  | x :: rest => if x = ',' ∨ x = ';' then skipBlanks ⟨c.pos + x.utf8Size, rest⟩ else c

theorem length_span_le (p : Char → Bool) (c : Cursor) :
    (c.span p).2.rest.length ≤ c.rest.length := by
  simpa [span] using (List.dropWhile_suffix p).length_le

theorem length_span_lt {p : Char → Bool} {c : Cursor} (h : (c.span p).1 ≠ []) :
    (c.span p).2.rest.length < c.rest.length := by
  have whole := congrArg List.length (List.takeWhile_append_dropWhile (p := p) (l := c.rest))
  have positive := List.length_pos_iff.mpr h
  simp only [span, List.length_append] at whole positive ⊢
  omega

theorem length_skipBlanks_le (c : Cursor) : c.skipBlanks.rest.length ≤ c.rest.length :=
  length_span_le isBlank c

theorem length_eat?_lt {x : Char} {c next : Cursor} (h : c.eat? x = some next) :
    next.rest.length < c.rest.length := by
  unfold eat? at h
  split at h
  · simp at h
  · split at h
    · next rest eq same =>
      cases h
      simp [eq]
    · simp at h

theorem length_skipSeparator_le (c : Cursor) : c.skipSeparator.rest.length ≤ c.rest.length := by
  have blanks := length_skipBlanks_le c
  unfold skipSeparator
  dsimp only
  split
  · exact blanks
  · next x rest eq =>
    split
    · have more := length_skipBlanks_le ⟨c.skipBlanks.pos + x.utf8Size, rest⟩
      simp only [eq, List.length_cons] at blanks
      exact Nat.le_trans more (Nat.le_trans (Nat.le_succ _) blanks)
    · exact blanks

end Cursor

end TreeDiagram
