import TreeDiagram.Bytewise.Basic
import TreeDiagram.Proofs.Text.Bytes
import TreeDiagram.Proofs.Text.Letter
import TreeDiagram.Proofs.Text.Places
/-!
# Byte positions between characters

The bytes of a character are in a class of characters just as the character is, if all characters
beyond ASCII are in the class or none of them is. So the byte positions that runs of such a class
end at are those that runs of characters end at, and a text can be cut there.
-/

namespace TreeDiagram

/-! ## The bytes of a character -/

/-- A function that does not tell characters beyond ASCII apart. -/
def Uniform {α : Type} (f : Char → α) : Prop :=
  ∀ c d : Char, 128 ≤ c.toNat → 128 ≤ d.toNat → f c = f d

theorem uniform_of_beyond {α : Type} {f : Char → α} {a : α}
    (beyond : ∀ c : Char, 128 ≤ c.toNat → f c = a) : Uniform f :=
  fun c d high high' => (beyond c high).trans (beyond d high').symm

theorem uniform_of_oneByte {p : Char → Bool} (one : ∀ c, p c = true → c.utf8Size = 1) :
    Uniform p := by
  apply uniform_of_beyond (a := false)
  intro c high
  refine Bool.eq_false_of_not_eq_true fun inside => ?_
  have small : c.toNat ≤ 127 :=
    UInt32.le_iff_toNat_le.mp (Char.utf8Size_eq_one_iff.mp (one c inside))
  omega

/-- Which character of ASCII one is. -/
theorem uniform_eq {x : Char} (ascii : x.toNat < 128) : Uniform fun y => y = x := by
  apply uniform_of_beyond (a := False)
  intro y high
  refine eq_false ?_
  rintro rfl
  omega

theorem uniform_either {x y : Char} (ascii : x.toNat < 128) (ascii' : y.toNat < 128) :
    Uniform fun z => z = x ∨ z = y :=
  fun c d high high' =>
    congrArg₂ Or (uniform_eq ascii c d high high') (uniform_eq ascii' c d high high')

theorem toNat_byteChar (b : UInt8) : (byteChar b).toNat = b.toNat := by
  have valid : b.toNat.isValidChar := .inl (Nat.lt_trans b.toNat_lt (by decide))
  rw [byteChar, Char.ofNat, dif_pos valid]
  rfl

/-- A byte of a character is the character, or both are beyond ASCII. -/
theorem byteChar_of_mem {c : Char} {b : UInt8} (member : b ∈ String.utf8EncodeChar c) :
    byteChar b = c ∨ 128 ≤ (byteChar b).toNat ∧ 128 ≤ c.toNat := by
  rw [String.utf8EncodeChar.eq_def] at member
  by_cases ascii : c.val.toNat ≤ 127
  · rw [if_pos ascii, List.mem_singleton] at member
    left
    rw [← Char.toNat_inj, toNat_byteChar, member]
    exact UInt8.toNat_ofNat_of_lt' (Nat.lt_of_le_of_lt ascii (by decide))
  · right
    rw [if_neg ascii] at member
    have high : 128 ≤ c.toNat := Nat.lt_of_not_le ascii
    refine ⟨?_, high⟩
    rw [toNat_byteChar]
    split_ifs at member <;> simp only [List.mem_cons, List.not_mem_nil, or_false] at member <;>
      rcases member with rfl | rfl | rfl | rfl <;>
      rw [UInt8.toNat_ofNat_of_lt' (by simp only [UInt8.size]; omega)] <;> omega

theorem Uniform.apply_byteChar {α : Type} {f : Char → α} (uniform : Uniform f) {c : Char}
    {b : UInt8} (member : b ∈ String.utf8EncodeChar c) : f (byteChar b) = f c := by
  rcases byteChar_of_mem member with same | ⟨high, high'⟩
  · rw [same]
  · exact uniform _ _ high high'

/-- A run of elements is a run of what they are made of, if their parts are in a class just as they
are. -/
theorem takeWhile_flatMap {α β : Type} {p : α → Bool} {q : β → Bool} {f : α → List β}
    (some_ : ∀ a, f a ≠ []) (same : ∀ a, ∀ b ∈ f a, q b = p a) (as : List α) :
    (as.flatMap f).takeWhile q = (as.takeWhile p).flatMap f := by
  induction as with
  | nil => rfl
  | cons a as ih =>
    rw [List.flatMap_cons]
    cases inside : p a with
    | true =>
      have all : ∀ b ∈ f a, q b = true := fun b member => (same a b member).trans inside
      rw [List.takeWhile_append_of_pos all, ih, List.takeWhile_cons_of_pos inside,
        List.flatMap_cons]
    | false =>
      obtain ⟨b, bs, parts⟩ := List.exists_cons_of_ne_nil (some_ a)
      have stops : q b = false := (same a b (by rw [parts]; exact List.mem_cons_self)).trans inside
      simp [parts, stops, inside]

theorem length_flatMap_utf8EncodeChar (cs : List Char) :
    (cs.flatMap String.utf8EncodeChar).length = byteLength cs := by
  induction cs with
  | nil => rfl
  | cons c cs ih =>
    rw [List.flatMap_cons, List.length_append, String.length_utf8EncodeChar, ih, byteLength_cons]

theorem eq_nil_of_byteLength {cs : List Char} (none_ : byteLength cs = 0) : cs = [] := by
  cases cs with
  | nil => rfl
  | cons c cs =>
    rw [byteLength_cons] at none_
    have positive := c.utf8Size_pos
    omega

/-! ## Cursors in a text -/

namespace Cursor

/-- A cursor that one comes to in a text. -/
def In (c : Cursor) (text : String) : Prop :=
  ∃ run, (start text.toList).Passes run c

theorem in_start (text : String) : (start text.toList).In text :=
  ⟨[], .refl _⟩

theorem in_ofList (cs : List Char) : (start cs).In (String.ofList cs) := by
  simpa using in_start (String.ofList cs)

namespace In

variable {c d : Cursor} {text : String} {run : List Char} {s : Span}

theorem of_passes (here : c.In text) (h : c.Passes run d) : d.In text := by
  obtain ⟨before, reach⟩ := here
  exact ⟨before ++ run, reach.trans h⟩

theorem skipBlanks (here : c.In text) : c.skipBlanks.In text := by
  obtain ⟨blanks, -, passed⟩ := c.passes_skipBlanks
  exact here.of_passes passed

theorem skipSeparator (here : c.In text) : c.skipSeparator.In text := by
  obtain ⟨gap, -, passed⟩ := c.passes_skipSeparator
  exact here.of_passes passed

theorem of_eat? {x : Char} (here : c.In text) (h : c.eat? x = some d) : d.In text :=
  here.of_passes (passes_eat? h)

theorem utf8ByteSize_eq (here : c.In text) : text.utf8ByteSize = c.pos + byteLength c.rest := by
  obtain ⟨before, reach⟩ := here
  have whole : text.toList = before ++ c.rest := reach.rest
  have place : c.pos = 0 + byteLength before := reach.pos
  rw [← byteLength_toList, whole, byteLength_append, place, Nat.zero_add]

theorem drop_bytes (here : c.In text) :
    (bytes text).drop c.pos = c.rest.flatMap String.utf8EncodeChar := by
  obtain ⟨before, reach⟩ := here
  have whole : text.toList = before ++ c.rest := reach.rest
  have place : c.pos = 0 + byteLength before := reach.pos
  rw [bytes_eq, whole, List.flatMap_append, place, Nat.zero_add,
    ← length_flatMap_utf8EncodeChar, List.drop_left]

theorem cuts (here : c.In text) (shows : c.Shows s run) : s.Cuts text run := by
  obtain ⟨before, reach⟩ := here
  exact (shows.of_passes reach).cuts

theorem atEnd_iff (here : c.In text) : text.utf8ByteSize ≤ c.pos ↔ c.atEnd = true := by
  have size := here.utf8ByteSize_eq
  rw [atEnd, List.isEmpty_iff]
  constructor
  · intro beyond
    exact eq_nil_of_byteLength (by omega)
  · intro none_
    rw [size, none_]
    exact Nat.le_refl _

/-- From a position between characters on, the bytes of a class end where the characters do. -/
theorem runEnd_eq {p : Char → Bool} (here : c.In text) (uniform : Uniform p) :
    runEnd p text c.pos = (c.span p).2.pos := by
  have run : ((bytes text).drop c.pos).takeWhile (fun b => p (byteChar b)) =
      (c.rest.takeWhile p).flatMap String.utf8EncodeChar := by
    rw [here.drop_bytes]
    exact takeWhile_flatMap (fun _ => String.utf8EncodeChar_ne_nil)
      (fun c b member => uniform.apply_byteChar member) c.rest
  rw [runEnd, run, length_flatMap_utf8EncodeChar]
  rfl

/-- Of the next character one sees what does not tell characters beyond ASCII apart. -/
theorem map_peek? {α : Type} {f : Char → α} (here : c.In text) (uniform : Uniform f) :
    (peek? text c.pos).map f = c.rest.head?.map f := by
  have next : (bytes text)[c.pos]? = (c.rest.flatMap String.utf8EncodeChar).head? := by
    rw [← here.drop_bytes, List.head?_drop]
  rw [peek?, next]
  cases c.rest with
  | nil => rfl
  | cons x rest =>
    obtain ⟨b, bs, parts⟩ :=
      List.exists_cons_of_ne_nil (String.utf8EncodeChar_ne_nil (c := x))
    have member : b ∈ String.utf8EncodeChar x := by
      rw [parts]
      exact List.mem_cons_self
    rw [List.flatMap_cons, parts]
    exact congrArg some (uniform.apply_byteChar member)

theorem peek?_eq_none_iff (here : c.In text) : peek? text c.pos = none ↔ c.rest = [] := by
  have same := here.map_peek? (f := fun _ => ()) fun _ _ _ _ => rfl
  rw [← List.head?_eq_none_iff, ← Option.map_eq_none_iff, same, Option.map_eq_none_iff]

/-- What is seen of a character does not tell it from the character itself, unless both are beyond
ASCII. -/
theorem exists_peek? {x : Char} {rest : List Char} (here : c.In text) (next : c.rest = x :: rest) :
    ∃ y, peek? text c.pos = some y ∧ ∀ {α : Type} (f : Char → α), Uniform f → f y = f x := by
  cases seen : peek? text c.pos with
  | none =>
    rw [here.peek?_eq_none_iff.mp seen] at next
    cases next
  | some y =>
    refine ⟨y, rfl, ?_⟩
    intro α f uniform
    have same := here.map_peek? uniform
    rw [seen, next] at same
    exact Option.some.inj same

theorem peek?_eq_some_iff {x : Char} (here : c.In text) (ascii : x.toNat < 128) :
    peek? text c.pos = some x ↔ c.rest.head? = some x := by
  have found : ∀ o : Option Char, o = some x ↔ o.map (fun y => y = x) = some True := by
    intro o
    simp
  rw [found, here.map_peek? (uniform_eq ascii), ← found]

theorem eat?_eq {x : Char} (here : c.In text) (ascii : x ≤ '~') :
    Bytewise.eat? x text c.pos = (c.eat? x).map Cursor.pos := by
  have small : x.toNat < 128 := Nat.lt_of_le_of_lt ascii (by decide)
  have one : x.utf8Size = 1 := utf8Size_of_le ascii
  unfold Bytewise.eat? Cursor.eat?
  simp only [here.peek?_eq_some_iff small]
  cases c.rest with
  | nil => rfl
  | cons y rest =>
    by_cases same : x = y
    · subst same
      simp [one]
    · have other : (y :: rest).head? ≠ some x := fun first => same (Option.some.inj first).symm
      rw [if_neg other]
      simp [same]

end In

end Cursor

namespace Bytewise

/-! ## Reading at positions between characters -/

section Cutting

variable {c d : Cursor} {text : String} {run : List Char} {s : Span}

theorem fitsIn_of_cuts (cuts : s.Cuts text run) : s.FitsIn text :=
  ⟨cuts.ordered, cuts.inside, cuts.startsAtChar, cuts.stopsAtChar⟩

theorem fitsIn_of_shows (here : c.In text) (shows : c.Shows s run) : s.FitsIn text :=
  fitsIn_of_cuts (here.cuts shows)

theorem mark_of_shows (here : c.In text) (shows : c.Shows s run) : mark text s = .ok s :=
  if_pos (fitsIn_of_shows here shows)

theorem slice_of_shows (here : c.In text) (shows : c.Shows s run) :
    slice text s = .ok (String.ofList run) := by
  rw [slice, mark_of_shows here shows]
  exact congrArg Except.ok (here.cuts shows).slice

theorem reject_of_shows {α : Type} (here : c.In text) (shows : c.Shows s run)
    (cause : ParseError.Cause) :
    reject (α := α) text cause s = .error (.rejected ⟨cause, s⟩) := by
  rw [reject, mark_of_shows here shows]
  rfl

theorem slice_rest (here : c.In text) :
    slice text ⟨c.pos, text.utf8ByteSize⟩ = .ok (String.ofList c.rest) := by
  rw [here.utf8ByteSize_eq]
  exact slice_of_shows here (Cursor.shows_iff.mpr ⟨[], [], by simp, by simp⟩)

theorem uniform_isBlank : Uniform isBlank :=
  uniform_of_oneByte fun _ => utf8Size_of_isBlank

theorem skipBlanks_eq (here : c.In text) : skipBlanks text c.pos = c.skipBlanks.pos :=
  here.runEnd_eq uniform_isBlank

theorem charAt?_eq (here : c.In text) : charAt? text c.pos = .ok c.rest.head? := by
  have inside : c.pos ≤ text.utf8ByteSize := by
    rw [here.utf8ByteSize_eq]
    exact Nat.le_add_right _ _
  rw [charAt?, Nat.min_eq_left inside, slice_rest here]
  simp [bind, Except.bind]

end Cutting

theorem ok_bind {ε α β : Type} (a : α) (f : α → Except ε β) : (Except.ok a >>= f) = f a := rfl

/-- An outcome of reading character by character, as one of reading byte by byte. The reader does
not break down. -/
def unbroken {α β : Type} (place : α → β) (x : Except ParseError α) : Except Halt β :=
  (x.mapError .rejected).map place

section Unbroken

variable {α β α' β' : Type}

@[simp] theorem unbroken_ok (place : α → β) (a : α) :
    unbroken place (.ok a) = .ok (place a) := rfl

theorem unbroken_id (x : Except ParseError α) : unbroken id x = x.mapError .rejected := by
  cases x <;> rfl

/-- Two steps do not break down if the first one does not, and the second one does not where the
first one leads to. -/
theorem bind_unbroken {place : α → β} {place' : α' → β'} {x : Except ParseError α}
    {f : α → Except ParseError α'} {g : β → Except Halt β'}
    (same : ∀ a, x = .ok a → g (place a) = unbroken place' (f a)) :
    unbroken place x >>= g = unbroken place' (x >>= f) := by
  cases x with
  | error e => rfl
  | ok a => exact same a rfl

end Unbroken

end Bytewise

end TreeDiagram
