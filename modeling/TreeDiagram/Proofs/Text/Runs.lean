import Mathlib.Data.List.TakeWhile
import TreeDiagram.Text.Cursor
/-!
# Runs of characters

A cursor goes from place to place over runs of characters. A maximal run of a class is one that
does not go on behind it; what a cursor takes is always maximal, and whatever is written as a
maximal run is taken as a whole.
-/

namespace TreeDiagram

/-- A run of characters of a class that ends where another character, or nothing, follows. -/
structure IsRun (p : Char → Bool) (run behind : List Char) : Prop where
  inside : ∀ c ∈ run, p c = true
  ends : ∀ c, behind.head? = some c → p c = false

/-- A text of blanks only. -/
def Blanks (cs : List Char) : Prop :=
  ∀ c ∈ cs, isBlank c = true

instance (cs : List Char) : Decidable (Blanks cs) :=
  List.decidableBAll (fun c => isBlank c = true) cs

/-- Blanks with at most one comma or semicolon among them. -/
inductive Gap : List Char → Prop
  | blanks {bs : List Char} (blank : Blanks bs) : Gap bs
  | separator {bs bs' : List Char} {x : Char} (blank : Blanks bs) (mark : x = ',' ∨ x = ';')
      (blank' : Blanks bs') : Gap (bs ++ x :: bs')

theorem blanks_nil : Blanks [] := by
  intro c member
  cases member

theorem Blanks.append {bs bs' : List Char} (blank : Blanks bs) (blank' : Blanks bs') :
    Blanks (bs ++ bs') := by
  intro c member
  rcases List.mem_append.mp member with first | second
  · exact blank c first
  · exact blank' c second

theorem isRun_takeWhile (p : Char → Bool) (cs : List Char) :
    IsRun p (cs.takeWhile p) (cs.dropWhile p) where
  inside _ member := List.mem_takeWhile_imp member
  ends c first := by
    have stops := List.head?_dropWhile_not p cs
    rw [first] at stops
    exact stops

namespace IsRun

variable {p : Char → Bool} {run behind : List Char}

theorem takeWhile_eq (h : IsRun p run behind) : (run ++ behind).takeWhile p = run := by
  have stop : behind.takeWhile p = [] := by
    cases behind with
    | nil => rfl
    | cons c rest => simp [h.ends c rfl]
  rw [List.takeWhile_append_of_pos h.inside, stop, List.append_nil]

theorem dropWhile_eq (h : IsRun p run behind) : (run ++ behind).dropWhile p = behind := by
  have stop : behind.dropWhile p = behind := by
    cases behind with
    | nil => rfl
    | cons c rest => simp [h.ends c rfl]
  rw [List.dropWhile_append_of_pos h.inside, stop]

theorem nil {p : Char → Bool} {behind : List Char}
    (ends : ∀ c, behind.head? = some c → p c = false) : IsRun p [] behind where
  inside c member := by cases member
  ends := ends

end IsRun

namespace Cursor

/-- Between two places stands a run of characters. -/
structure Passes (c : Cursor) (run : List Char) (next : Cursor) : Prop where
  rest : c.rest = run ++ next.rest
  pos : next.pos = c.pos + byteLength run

namespace Passes

variable {c d e : Cursor} {run run' : List Char}

theorem refl (c : Cursor) : c.Passes [] c :=
  ⟨rfl, rfl⟩

theorem trans (h : c.Passes run d) (h' : d.Passes run' e) : c.Passes (run ++ run') e where
  rest := by rw [h.rest, h'.rest, List.append_assoc]
  pos := by rw [h'.pos, h.pos, byteLength_append, Nat.add_assoc]

end Passes

/-- Behind a place stands a text, at a span of bytes. -/
inductive Shows (c : Cursor) : Span → List Char → Prop
  | intro {before text : List Char} {start stop : Cursor} (reach : c.Passes before start)
      (across : start.Passes text stop) : Shows c ⟨start.pos, stop.pos⟩ text

theorem Passes.shows {c d : Cursor} {run : List Char} (h : c.Passes run d) :
    c.Shows ⟨c.pos, d.pos⟩ run :=
  .intro (.refl c) h

theorem Shows.of_passes {c d : Cursor} {run text : List Char} {s : Span} (h : c.Passes run d)
    (shows : d.Shows s text) : c.Shows s text := by
  cases shows with
  | intro reach across => exact .intro (h.trans reach) across

theorem passes_span (p : Char → Bool) (c : Cursor) : c.Passes (c.span p).1 (c.span p).2 where
  rest := List.takeWhile_append_dropWhile.symm
  pos := rfl

theorem isRun_span (p : Char → Bool) (c : Cursor) : IsRun p (c.span p).1 (c.span p).2.rest :=
  isRun_takeWhile p c.rest

/-- A maximal run is taken as a whole. -/
theorem span_of_isRun {p : Char → Bool} {run behind : List Char} (h : IsRun p run behind)
    (pos : Nat) : span p ⟨pos, run ++ behind⟩ = (run, ⟨pos + byteLength run, behind⟩) := by
  simp only [span, h.takeWhile_eq, h.dropWhile_eq]

theorem passes_skipBlanks (c : Cursor) : ∃ bs, Blanks bs ∧ c.Passes bs c.skipBlanks :=
  ⟨_, (isRun_span isBlank c).inside, passes_span isBlank c⟩

theorem head_skipBlanks (c : Cursor) : ∀ x, c.skipBlanks.rest.head? = some x → isBlank x = false :=
  (isRun_span isBlank c).ends

theorem skipBlanks_of_head {c : Cursor} (visible : ∀ x, c.rest.head? = some x → isBlank x = false) :
    c.skipBlanks = c := by
  have nothing := span_of_isRun (IsRun.nil visible) c.pos
  rw [List.nil_append] at nothing
  rw [skipBlanks, nothing]
  rfl

theorem skipBlanks_skipBlanks (c : Cursor) : c.skipBlanks.skipBlanks = c.skipBlanks :=
  skipBlanks_of_head c.head_skipBlanks

/-- Blanks in front make no difference to where the first character is that is none. -/
theorem skipBlanks_append {bs : List Char} (blank : Blanks bs) (pos : Nat) (cs : List Char) :
    skipBlanks ⟨pos, bs ++ cs⟩ = skipBlanks ⟨pos + byteLength bs, cs⟩ := by
  have taken : (bs ++ cs).takeWhile isBlank = bs ++ cs.takeWhile isBlank :=
    List.takeWhile_append_of_pos blank
  have left : (bs ++ cs).dropWhile isBlank = cs.dropWhile isBlank :=
    List.dropWhile_append_of_pos blank
  simp only [skipBlanks, span, taken, left, byteLength_append, Nat.add_assoc]

theorem passes_eat? {x : Char} {c next : Cursor} (h : c.eat? x = some next) :
    c.Passes [x] next := by
  unfold eat? at h
  split at h
  · cases h
  · next rest whole =>
    split at h
    · next same =>
      cases h
      exact ⟨by rw [whole, same]; rfl, by simp [same]⟩
    · cases h

theorem eat?_cons (x : Char) (pos : Nat) (cs : List Char) :
    eat? x ⟨pos, x :: cs⟩ = some ⟨pos + x.utf8Size, cs⟩ := by
  simp [eat?]

theorem eat?_eq_none {x : Char} {c : Cursor} (other : c.rest.head? ≠ some x) :
    c.eat? x = none := by
  unfold eat?
  split
  · rfl
  · next y rest whole =>
    rw [if_neg]
    rintro rfl
    exact other (by rw [whole]; rfl)

theorem passes_skipSeparator (c : Cursor) : ∃ gap, Gap gap ∧ c.Passes gap c.skipSeparator := by
  obtain ⟨bs, blank, passed⟩ := c.passes_skipBlanks
  unfold skipSeparator
  dsimp only
  split
  · exact ⟨bs, .blanks blank, passed⟩
  · next x rest whole =>
    split
    · next mark =>
      obtain ⟨bs', blank', passed'⟩ :=
        passes_skipBlanks ⟨c.skipBlanks.pos + x.utf8Size, rest⟩
      have across : c.skipBlanks.Passes [x] ⟨c.skipBlanks.pos + x.utf8Size, rest⟩ :=
        ⟨whole, by simp⟩
      exact ⟨bs ++ x :: bs', .separator blank mark blank', passed.trans (across.trans passed')⟩
    · exact ⟨bs, .blanks blank, passed⟩

/-- A gap is skipped together with the blanks behind it, unless a separator comes after these. -/
theorem skipSeparator_append {gap : List Char} (h : Gap gap) (pos : Nat) {cs : List Char}
    (other : ∀ x, (cs.dropWhile isBlank).head? = some x → ¬(x = ',' ∨ x = ';')) :
    skipSeparator ⟨pos, gap ++ cs⟩ = skipBlanks ⟨pos + byteLength gap, cs⟩ := by
  cases h with
  | blanks blank =>
    unfold skipSeparator
    rw [skipBlanks_append blank]
    dsimp only
    split
    · rfl
    · next x rest whole =>
      rw [if_neg]
      exact other x (by rw [show cs.dropWhile isBlank = x :: rest from whole]; rfl)
  | @separator bs bs' x blank mark blank' =>
    have visible : isBlank x = false := by
      rcases mark with rfl | rfl <;> rfl
    have start : skipBlanks ⟨pos, (bs ++ x :: bs') ++ cs⟩ =
        ⟨pos + byteLength bs, x :: (bs' ++ cs)⟩ := by
      rw [List.append_assoc, skipBlanks_append blank]
      apply skipBlanks_of_head
      intro y first
      cases first
      exact visible
    unfold skipSeparator
    rw [start]
    dsimp only
    rw [if_pos mark, skipBlanks_append blank']
    congr 2
    simp only [byteLength_append, byteLength_cons]
    omega

end Cursor

end TreeDiagram
