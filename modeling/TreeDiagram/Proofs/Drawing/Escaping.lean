import Mathlib.Data.List.Basic
import TreeDiagram.Proofs.Drawing.Inert
/-!
# Escaped texts are read back

Each character with a meaning of its own in markup is written as an entity. It makes no difference
whether this is done character by character or in one pass over the whole text for each of them, as
long as the ampersand, with which entities begin, has the first pass. Replacing entities from left
to right gives back every text, those included that look like an entity themselves.
-/

namespace TreeDiagram

/-- The characters with a meaning of their own in markup, and the entities that are written for
them. The ampersand comes first. -/
def entities : List (Char × String) :=
  [('&', "&amp;"), ('<', "&lt;"), ('>', "&gt;"), ('"', "&quot;"), ('\x27', "&apos;")]

/-- One pass over a text, which writes an entity wherever a character stands. -/
def replaceEach (special : Char) (entity : String) (cs : List Char) : List Char :=
  cs.flatMap fun c => if c = special then entity.toList else [c]

/-- A text after one pass for each entity, in their order. -/
def escapeInPasses (cs : List Char) : List Char :=
  entities.foldl (fun cs e => replaceEach e.1 e.2 cs) cs

/-- The text in which the entities are replaced by their characters, from left to right. -/
def unescape : List Char → List Char
  | '&' :: 'a' :: 'm' :: 'p' :: ';' :: rest => '&' :: unescape rest
  | '&' :: 'l' :: 't' :: ';' :: rest => '<' :: unescape rest
  | '&' :: 'g' :: 't' :: ';' :: rest => '>' :: unescape rest
  | '&' :: 'q' :: 'u' :: 'o' :: 't' :: ';' :: rest => '"' :: unescape rest
  | '&' :: 'a' :: 'p' :: 'o' :: 's' :: ';' :: rest => '\x27' :: unescape rest
  | c :: rest => c :: unescape rest
  | [] => []

theorem toList_escape (s : String) : (escape s).toList = s.toList.flatMap escapeChar := by
  rw [escape, String.toList_ofList]

/-- A character is written as its entity, or stands for itself. -/
theorem escapeChar_cases (c : Char) :
    (∃ entity, (c, entity) ∈ entities ∧ escapeChar c = entity.toList) ∨
      (∀ e ∈ entities, c ≠ e.1) ∧ escapeChar c = [c] := by
  unfold escapeChar
  split
  · exact .inl ⟨"&amp;", by decide, rfl⟩
  · exact .inl ⟨"&lt;", by decide, rfl⟩
  · exact .inl ⟨"&gt;", by decide, rfl⟩
  · exact .inl ⟨"&quot;", by decide, rfl⟩
  · exact .inl ⟨"&apos;", by decide, rfl⟩
  · next ampersand opening closing quote apostrophe =>
    refine .inr ⟨?_, rfl⟩
    simp only [entities, List.forall_mem_cons]
    exact ⟨ampersand, opening, closing, quote, apostrophe, by simp⟩

/-! ## Passes -/

theorem replaceEach_append (special : Char) (entity : String) (cs ds : List Char) :
    replaceEach special entity (cs ++ ds) =
      replaceEach special entity cs ++ replaceEach special entity ds :=
  List.flatMap_append

theorem escapeInPasses_append (cs ds : List Char) :
    escapeInPasses (cs ++ ds) = escapeInPasses cs ++ escapeInPasses ds := by
  unfold escapeInPasses
  induction entities generalizing cs ds with
  | nil => rfl
  | cons e later ih =>
    rw [List.foldl_cons, replaceEach_append, ih, List.foldl_cons, List.foldl_cons]

/-- The passes leave a character alone that is not special. -/
theorem escapeInPasses_of_plain {c : Char} (plain : ∀ e ∈ entities, c ≠ e.1) :
    escapeInPasses [c] = [c] := by
  unfold escapeInPasses
  generalize entities = es at plain
  induction es with
  | nil => rfl
  | cons e later ih =>
    obtain ⟨here, others⟩ := List.forall_mem_cons.mp plain
    rw [List.foldl_cons, replaceEach, List.flatMap_singleton, if_neg here, ih others]

theorem escapeInPasses_singleton (c : Char) : escapeInPasses [c] = escapeChar c := by
  rcases escapeChar_cases c with ⟨entity, member, written⟩ | ⟨plain, written⟩
  · -- later passes find nothing in the entity, since no other special character is in it
    have each : ∀ e ∈ entities, escapeInPasses [e.1] = e.2.toList := by decide
    rw [written]
    exact each (c, entity) member
  · rw [written, escapeInPasses_of_plain plain]

theorem escapeInPasses_eq (cs : List Char) : escapeInPasses cs = cs.flatMap escapeChar := by
  induction cs with
  | nil => rfl
  | cons c cs ih =>
    rw [List.flatMap_cons, ← ih, ← escapeInPasses_singleton, ← escapeInPasses_append]
    rfl

/-! ## Reading back -/

theorem unescape_cons {c : Char} (plain : c ≠ '&') (rest : List Char) :
    unescape (c :: rest) = c :: unescape rest := by
  conv_lhs => unfold unescape
  split <;> simp_all

theorem unescape_escapeChar_append (c : Char) (rest : List Char) :
    unescape (escapeChar c ++ rest) = c :: unescape rest := by
  unfold escapeChar
  split
  · rfl
  · rfl
  · rfl
  · rfl
  · rfl
  · next ampersand _ _ _ _ => exact unescape_cons ampersand rest

theorem unescape_flatMap (cs : List Char) : unescape (cs.flatMap escapeChar) = cs := by
  induction cs with
  | nil => rfl
  | cons c cs ih => rw [List.flatMap_cons, unescape_escapeChar_append, ih]

theorem unescape_escape (s : String) : unescape (escape s).toList = s.toList := by
  rw [toList_escape, unescape_flatMap]

theorem escape_append (s t : String) : escape (s ++ t) = escape s ++ escape t := by
  rw [← String.toList_inj, String.toList_append, toList_escape, toList_escape, toList_escape,
    String.toList_append, List.flatMap_append]

theorem escape_inj {s t : String} : escape s = escape t ↔ s = t := by
  constructor
  · intro same
    rw [← String.toList_inj, ← unescape_escape s, same, unescape_escape t]
  · exact congrArg escape

/-! ## Safety -/

/-- Only the first of the characters that are written for one can be an ampersand. -/
theorem exists_escapeChar_eq_cons (c : Char) :
    ∃ first others, escapeChar c = first :: others ∧ '&' ∉ others := by
  unfold escapeChar
  split <;> exact ⟨_, _, rfl, by decide⟩

/-- Wherever an ampersand stands, an entity begins. -/
def BeginsEntities (cs : List Char) : Prop :=
  ∀ before behind, cs = before ++ '&' :: behind → ∃ e ∈ entities, e.2.toList <+: '&' :: behind

theorem BeginsEntities.escapeChar_append {cs : List Char} (begins : BeginsEntities cs) (c : Char) :
    BeginsEntities (escapeChar c ++ cs) := by
  intro before behind whole
  cases before with
  | nil =>
    rw [List.nil_append] at whole
    rcases escapeChar_cases c with ⟨entity, member, written⟩ | ⟨plain, written⟩
    · refine ⟨(c, entity), member, ?_⟩
      rw [← whole, written]
      exact List.prefix_append _ _
    · rw [written] at whole
      exact absurd (List.cons.inj whole).1 (plain ('&', "&amp;") List.mem_cons_self)
  | cons first before =>
    obtain ⟨d, others, written, single⟩ := exists_escapeChar_eq_cons c
    rw [written] at whole
    have rest : others ++ cs = before ++ '&' :: behind := (List.cons.inj whole).2
    rcases List.append_eq_append_iff.mp rest with ⟨skipped, -, later⟩ | ⟨left, inside, other⟩
    · exact begins skipped behind later
    · cases left with
      | nil => exact begins [] behind other.symm
      | cons x left =>
        rw [List.cons_append, List.cons.injEq] at other
        refine absurd ?_ single
        rw [inside, ← other.1]
        exact List.mem_append_right _ List.mem_cons_self

theorem beginsEntities_escape (s : String) : BeginsEntities (escape s).toList := by
  rw [toList_escape]
  induction s.toList with
  | nil =>
    intro before behind nothing
    exact absurd nothing.symm (List.append_ne_nil_of_right_ne_nil _ (List.cons_ne_nil _ _))
  | cons c cs ih => exact ih.escapeChar_append c

theorem apostrophe_notMem_escapeChar (c : Char) : '\x27' ∉ escapeChar c := by
  have each : ∀ e ∈ entities, '\x27' ∉ e.2.toList := by decide
  rcases escapeChar_cases c with ⟨entity, member, written⟩ | ⟨plain, written⟩
  · rw [written]
    exact each (c, entity) member
  · have other : c ≠ '\x27' := plain ('\x27', "&apos;") (by decide)
    rw [written, List.mem_singleton]
    exact other.symm

/-- Escaping a text, which the passes do as well, leaves none of the special characters in it but
ampersands that begin an entity. Replacing the entities by their characters gives the text back, so
that no two texts are escaped alike; a text is escaped piece by piece. An entity in the text is
escaped as well and therefore comes back unchanged. -/
theorem escape_lossless (s : String) :
    (escape s).toList = escapeInPasses s.toList ∧
      (∀ c ∈ (escape s).toList, c ≠ '<' ∧ c ≠ '>' ∧ c ≠ '"' ∧ c ≠ '\x27') ∧
      (∀ before behind, (escape s).toList = before ++ '&' :: behind →
        ∃ e ∈ entities, e.2.toList <+: '&' :: behind) ∧
      unescape (escape s).toList = s.toList ∧
      (∀ t, escape s = escape t ↔ s = t) ∧
      (∀ t, escape (s ++ t) = escape s ++ escape t) ∧
      ∀ e ∈ entities, escape e.2 = "&amp;" ++ String.ofList e.2.toList.tail ∧
        unescape (escape (s ++ e.2)).toList = s.toList ++ e.2.toList := by
  refine ⟨?_, ?_, beginsEntities_escape s, unescape_escape s, fun t => escape_inj,
    escape_append s, ?_⟩
  · rw [toList_escape, escapeInPasses_eq]
  · intro c member
    have inert := inert_escape s
    refine ⟨inert.ne_opening c member, inert.ne_closing c member, inert.ne_quote c member, ?_⟩
    rintro rfl
    rw [toList_escape] at member
    obtain ⟨d, -, written⟩ := List.mem_flatMap.mp member
    exact apostrophe_notMem_escapeChar d written
  · intro e member
    have each : ∀ e ∈ entities, escape e.2 = "&amp;" ++ String.ofList e.2.toList.tail := by decide
    refine ⟨each e member, ?_⟩
    rw [unescape_escape, String.toList_append]

theorem escape_lossless_entity :
    ('l' ∈ (escape "<&lt;").toList ∧ 'l' ≠ '<') ∧
      ((escape "<&lt;").toList = "&lt;".toList ++ '&' :: "amp;lt;".toList ∧
        ∃ e ∈ entities, e.2.toList <+: '&' :: "amp;lt;".toList) ∧
      ('<', "&lt;") ∈ entities ∧ escape "&lt;" = "&amp;lt;" ∧
      unescape (escape ("<" ++ "&lt;")).toList = "<&lt;".toList := by
  obtain ⟨-, safe, begins, -⟩ := escape_lossless "<&lt;"
  obtain ⟨-, -, -, -, -, -, looksEscaped⟩ := escape_lossless "<"
  have letter : 'l' ∈ (escape "<&lt;").toList := by decide
  have split : (escape "<&lt;").toList = "&lt;".toList ++ '&' :: "amp;lt;".toList := by decide
  have entity : ('<', "&lt;") ∈ entities := by decide
  obtain ⟨again, back⟩ := looksEscaped _ entity
  exact ⟨⟨letter, (safe 'l' letter).1⟩, ⟨split, begins _ _ split⟩, entity, again, back⟩

end TreeDiagram
