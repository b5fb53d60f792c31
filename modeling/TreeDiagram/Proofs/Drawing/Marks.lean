import Mathlib.Data.List.Forall2
import TreeDiagram.Drawing.Page
import TreeDiagram.Proofs.Drawing.Tags
/-!
# What the tags of a page are

An element is written as one tag, or as two around its text. Each tag has its own name, begins with
the attributes that say what it stands for, and has no others than those that say how it looks.
Between tags stand only blanks and the escaped texts of elements.
-/

namespace TreeDiagram

/-- What a tag stands for: its name, the attributes that it begins with, what stands in front of its
closing bracket, and the text that follows it unless that is blank. -/
structure Mark where
  name : String
  attributes : List (String × String) := []
  ending : String := ""
  content : Option String := none

/-- The names of the attributes that say where an element is and how it looks. -/
def lookNames : List String :=
  ["x", "y", "width", "height", "viewBox", "cx", "cy", "r", "text-anchor", "dominant-baseline",
    "fill", "fill-opacity", "stroke", "stroke-opacity", "stroke-width", "stroke-dasharray",
    "stroke-dashoffset", "font-size", "font-family", "font-style", "font-weight"]

/-- Attributes that say how an element looks, with inert values. -/
def Looks (attributes : List (String × String)) : Prop :=
  ∀ a ∈ attributes, a.1 ∈ lookNames ∧ Inert a.2.toList

/-- A text of attributes that say how an element looks. -/
def LooksText (styles : String) : Prop :=
  ∃ looks, Looks looks ∧ styles.toList = written looks

namespace Mark

/-- What stands behind the tag of a mark. -/
def FollowedBy (m : Mark) (behind : List Char) : Prop :=
  match m.content with
  | none => Blanks behind
  | some text => behind = (escape text).toList

/-- A tag that stands for a mark. -/
structure Fits (m : Mark) (t : Tag) : Prop where
  name : t.name = m.name
  attributes : ∃ looks, t.attributes = m.attributes ++ looks ∧ ∀ a ∈ looks, a.1 ∈ lookNames
  inside : t.inside = m.name.toList ++ (written t.attributes ++ m.ending.toList)
  behind : m.FollowedBy t.behind

/-- The tag that ends an element. -/
def closing (name : String) : Mark :=
  { name := "/" ++ name }

/-- The tags of an element: a second one closes it if it encloses a text. -/
def whole (m : Mark) : List Mark :=
  m :: if m.content.isSome then [closing m.name] else []

/-- A mark that can be written as it is. -/
structure Proper (m : Mark) : Prop where
  unbroken : ' ' ∉ m.name.toList
  name : Inert m.name.toList
  attributes : InertAttributes m.attributes
  ending : Inert m.ending.toList
  bare : m.attributes = [] → m.ending = ""

/-- A tag as it is written for a mark. -/
def tag (m : Mark) (looks : List (String × String)) (behind : List Char) : Tag where
  inside := m.name.toList ++ (written (m.attributes ++ looks) ++ m.ending.toList)
  behind

end Mark

theorem Mark.flatMap_whole {marks : List Mark} (lone : ∀ m ∈ marks, m.content = none) :
    marks.flatMap whole = marks := by
  induction marks with
  | nil => rfl
  | cons m later ih =>
    obtain ⟨this, others⟩ := List.forall_mem_cons.mp lone
    rw [List.flatMap_cons, ih others, whole, this]
    rfl

theorem looks_append {before behind : List (String × String)} :
    Looks (before ++ behind) ↔ Looks before ∧ Looks behind :=
  List.forall_mem_append

theorem looks_nil : Looks [] :=
  fun a member => by cases member

theorem Looks.cons {name value : String} {later : List (String × String)}
    (listed : name ∈ lookNames) (inert : Inert value.toList) (look : Looks later) :
    Looks ((name, value) :: later) :=
  List.forall_mem_cons.mpr ⟨⟨listed, inert⟩, look⟩

theorem LooksText.append {styles styles' : String} (h : LooksText styles)
    (h' : LooksText styles') : LooksText (styles ++ styles') := by
  obtain ⟨looks, look, same⟩ := h
  obtain ⟨looks', look', same'⟩ := h'
  refine ⟨looks ++ looks', looks_append.mpr ⟨look, look'⟩, ?_⟩
  rw [String.toList_append, same, same', written_append]

theorem looksText_empty : LooksText "" :=
  ⟨[], looks_nil, rfl⟩

theorem looksText_attribute (name : String) (listed : name ∈ lookNames) {value : String}
    (inert : Inert value.toList) : LooksText (attributeText name value) :=
  ⟨[(name, value)], looks_nil.cons listed inert, by simp [written]⟩

theorem inert_of_mem_lookNames {name : String} (listed : name ∈ lookNames) :
    Inert name.toList := by
  have each : ∀ name ∈ lookNames, Inert name.toList := by decide
  exact each name listed

theorem ne_brackets_of_mem_written {attributes : List (String × String)}
    (inert : InertAttributes attributes) :
    ∀ c ∈ written attributes, c ≠ '<' ∧ c ≠ '>' := by
  intro c member
  obtain ⟨a, inList, inText⟩ := List.mem_flatMap.mp member
  obtain ⟨inertName, inertValue⟩ := inert a inList
  simp only [attributeText, String.toList_append, List.mem_append] at inText
  rcases inText with ((((space | inName) | sign) | inValue) | quote)
  · rw [List.eq_of_mem_singleton space]
    decide
  · exact ⟨inertName.ne_opening c inName, inertName.ne_closing c inName⟩
  · have either : c = '=' ∨ c = '"' := by simpa using sign
    rcases either with rfl | rfl <;> decide
  · exact ⟨inertValue.ne_opening c inValue, inertValue.ne_closing c inValue⟩
  · rw [List.eq_of_mem_singleton quote]
    decide

theorem Mark.FollowedBy.ne_opening {m : Mark} {behind : List Char} (h : m.FollowedBy behind) :
    ∀ c ∈ behind, c ≠ '<' := by
  unfold FollowedBy at h
  split at h
  · rintro c member rfl
    exact absurd (h _ member) (by decide)
  · rw [h]
    exact (inert_escape _).ne_opening

namespace Mark.Proper

variable {m : Mark} {looks : List (String × String)}

theorem closing (proper : m.Proper) : (Mark.closing m.name).Proper where
  unbroken := by simpa [Mark.closing] using proper.unbroken
  name := by
    rw [Mark.closing, String.toList_append]
    exact inert_append.mpr ⟨by decide, proper.name⟩
  attributes := inertAttributes_nil
  ending c member := by cases member
  bare _ := rfl

theorem inert_attributes (proper : m.Proper) (look : Looks looks) :
    InertAttributes (m.attributes ++ looks) := by
  intro a member
  rcases List.mem_append.mp member with own | looking
  · exact proper.attributes a own
  · exact ⟨inert_of_mem_lookNames (look a looking).1, (look a looking).2⟩

theorem separate (proper : m.Proper) (look : Looks looks) {behind : List Char}
    (followed : m.FollowedBy behind) : (m.tag looks behind).Separate where
  behind := followed.ne_opening
  inside c member := by
    rcases List.mem_append.mp member with inName | member
    · exact ⟨proper.name.ne_opening c inName, proper.name.ne_closing c inName⟩
    · rcases List.mem_append.mp member with inAttributes | inEnding
      · exact ne_brackets_of_mem_written (proper.inert_attributes look) c inAttributes
      · exact ⟨proper.ending.ne_opening c inEnding, proper.ending.ne_closing c inEnding⟩

/-- What is written for a mark is read as standing for it. -/
theorem fits (proper : m.Proper) (look : Looks looks) {behind : List Char}
    (followed : m.FollowedBy behind) : m.Fits (m.tag looks behind) := by
  have bare : m.attributes ++ looks = [] → m.ending.toList = [] := by
    intro none_
    rw [proper.bare (List.append_eq_nil_iff.mp none_).1]
    rfl
  obtain ⟨name, attributes⟩ := Tag.read_of_written (t := m.tag looks behind) rfl proper.unbroken
    (proper.inert_attributes look) proper.ending bare
  refine ⟨name, ⟨looks, attributes, fun a member => (look a member).1⟩, ?_, followed⟩
  rw [attributes]
  rfl

end Mark.Proper

theorem Mark.filter_map_same {α : Type} {name : String} {f : α → Mark}
    (named : ∀ a, (f a).name = name) (row : List α) :
    (row.map f).filter (fun m => m.name = name) = row.map f := by
  rw [List.filter_eq_self]
  intro m member
  obtain ⟨a, -, rfl⟩ := List.mem_map.mp member
  exact decide_eq_true (named a)

theorem Mark.filter_map_other {α : Type} {name : String} {f : α → Mark}
    (named : ∀ a, (f a).name ≠ name) (row : List α) :
    (row.map f).filter (fun m => m.name = name) = [] := by
  rw [List.filter_eq_nil_iff]
  intro m member same
  obtain ⟨a, -, rfl⟩ := List.mem_map.mp member
  exact named a (of_decide_eq_true same)

/-- The ends of elements have names of their own. -/
theorem Mark.filter_whole {name : String} (opens : ∀ ended, "/" ++ ended ≠ name)
    (marks : List Mark) : (marks.flatMap whole).filter (fun m => m.name = name) =
      marks.filter fun m => m.name = name := by
  have ends (m : Mark) : (if m.content.isSome then [closing m.name] else []).filter
      (fun m => m.name = name) = [] := by
    split
    · exact List.filter_cons_of_neg fun same => opens m.name (of_decide_eq_true same)
    · rfl
  induction marks with
  | nil => rfl
  | cons m later ih =>
    rw [List.flatMap_cons, List.filter_append, ih, whole, List.filter_cons, ends, List.filter_cons]
    split <;> rfl

/-- A text that is written as tags for marks, one after the other. -/
def ReadsTags (marks : List Mark) (text : List Char) : Prop :=
  ∃ tags : List Tag, text = tags.flatMap Tag.text ∧ (∀ t ∈ tags, t.Separate) ∧
    List.Forall₂ Mark.Fits marks tags

/-- Such a text behind blanks. -/
def ReadsAs (marks : List Mark) (text : List Char) : Prop :=
  ∃ gap rest, text = gap ++ rest ∧ Blanks gap ∧ ReadsTags marks rest

theorem ReadsTags.readsAs {marks : List Mark} {text : List Char} (h : ReadsTags marks text) :
    ReadsAs marks text :=
  ⟨[], text, rfl, blanks_nil, h⟩

theorem ReadsAs.indented {marks : List Mark} {text gap : List Char} (blank : Blanks gap)
    (h : ReadsAs marks text) : ReadsAs marks (gap ++ text) := by
  obtain ⟨gap', rest, rfl, blank', tags⟩ := h
  exact ⟨gap ++ gap', rest, (List.append_assoc _ _ _).symm, blank.append blank', tags⟩

theorem readsTags_tag_append {m : Mark} (proper : m.Proper) {looks : List (String × String)}
    (look : Looks looks) {behind : List Char} (followed : m.FollowedBy behind)
    {later : List Mark} {rest : List Char} (h : ReadsTags later rest) :
    ReadsTags (m :: later) ((m.tag looks behind).text ++ rest) := by
  obtain ⟨tags, rfl, separate, fits⟩ := h
  refine ⟨m.tag looks behind :: tags, rfl, ?_, .cons (proper.fits look followed) fits⟩
  exact List.forall_mem_cons.mpr ⟨proper.separate look followed, separate⟩

namespace Element

theorem toList_foldl_attributes (attributes : List (String × String)) (start : String) :
    (attributes.foldl (fun text a => text ++ attributeText a.1 a.2) start).toList =
      start.toList ++ written attributes := by
  induction attributes generalizing start with
  | nil => simp [written]
  | cons a later ih =>
    rw [List.foldl_cons, ih, String.toList_append, List.append_assoc]
    rfl

theorem toList_attributesText (e : Element) :
    e.attributesText.toList = written e.attributes ++ e.styles.toList := by
  rw [attributesText, String.toList_append, toList_foldl_attributes]
  rfl

/-- An element that stands for a mark. -/
structure Shows (e : Element) (m : Mark) : Prop where
  proper : m.Proper
  tag : e.tag = m.name
  content : e.content = m.content.map escape
  ending : m.ending = if m.content.isSome then "" else "/"
  looks : ∃ looks, Looks looks ∧ e.attributesText.toList = written (m.attributes ++ looks)

theorem exists_looks {e : Element} {lead more : List (String × String)}
    (split : e.attributes = lead ++ more) (look : Looks more) (styled : LooksText e.styles) :
    ∃ looks, Looks looks ∧ e.attributesText.toList = written (lead ++ looks) := by
  obtain ⟨looks, look', same⟩ := styled
  refine ⟨more ++ looks, looks_append.mpr ⟨look, look'⟩, ?_⟩
  rw [toList_attributesText, split, same, ← written_append, List.append_assoc]

theorem toList_opening {e : Element} {m : Mark} {looks : List (String × String)}
    (tag : e.tag = m.name) (ending : m.ending = "")
    (attributes : e.attributesText.toList = written (m.attributes ++ looks))
    (behind : List Char) :
    e.opening.toList ++ behind = (m.tag looks behind).text := by
  simp [opening, Mark.tag, Tag.text, tag, ending, attributes]

theorem toList_closing (e : Element) (behind : List Char) :
    e.closing.toList ++ behind = ((Mark.closing e.tag).tag [] behind).text := by
  simp [closing, Mark.closing, Mark.tag, Tag.text, written]

/-- An element reads as its tags, in front of what comes behind it. -/
theorem Shows.readsTags {e : Element} {m : Mark} (shows_ : e.Shows m) {later : List Mark}
    {rest : List Char} (h : ReadsAs later rest) :
    ReadsTags (m.whole ++ later) (e.text.toList ++ rest) := by
  obtain ⟨gap, rest, rfl, blank, tags⟩ := h
  obtain ⟨looks, look, attributes⟩ := shows_.looks
  have content := shows_.content
  have ending := shows_.ending
  cases enclosed : m.content with
  | none =>
    rw [enclosed] at content ending
    have lone : e.text.toList ++ (gap ++ rest) = (m.tag looks gap).text ++ rest := by
      simp [Element.text, content, Mark.tag, Tag.text, shows_.tag, ending, attributes]
    have followed : m.FollowedBy gap := by
      rw [Mark.FollowedBy, enclosed]
      exact blank
    rw [lone, Mark.whole, enclosed]
    exact readsTags_tag_append shows_.proper look followed tags
  | some text =>
    rw [enclosed] at content ending
    have pair : e.text.toList ++ (gap ++ rest) =
        (m.tag looks (escape text).toList).text ++
          (((Mark.closing m.name).tag [] gap).text ++ rest) := by
      have opened := toList_opening shows_.tag ending attributes (escape text).toList
      have closed := e.toList_closing gap
      rw [← opened, ← shows_.tag, ← closed]
      simp [Element.text, content]
    have followed : m.FollowedBy (escape text).toList := by
      rw [Mark.FollowedBy, enclosed]
    rw [pair, Mark.whole, enclosed]
    apply readsTags_tag_append shows_.proper look followed
    exact readsTags_tag_append shows_.proper.closing looks_nil blank tags

end Element

namespace SvgOptions

theorem blanks_indent (o : SvgOptions) : Blanks o.indent.toList := by
  unfold indent
  split <;> decide

theorem blanks_lineEnd (o : SvgOptions) : Blanks o.lineEnd.toList := by
  unfold lineEnd
  split <;> decide

end SvgOptions

namespace Page

/-- Elements with what stands around each of them. -/
def lines (o : SvgOptions) (elements : List Element) : List Char :=
  elements.flatMap fun e => (o.indent ++ e.text ++ o.lineEnd).toList

theorem toList_foldl_elements (o : SvgOptions) (elements : List Element) (start : String) :
    (elements.foldl (fun text e => text ++ o.indent ++ e.text ++ o.lineEnd) start).toList =
      start.toList ++ lines o elements := by
  induction elements generalizing start with
  | nil => simp [lines]
  | cons e later ih =>
    rw [List.foldl_cons, ih]
    simp [lines]

theorem readsAs_lines {o : SvgOptions} {elements : List Element} {marks later : List Mark}
    {rest : List Char} (shows_ : List.Forall₂ Element.Shows elements marks)
    (h : ReadsAs later rest) :
    ReadsAs (marks.flatMap Mark.whole ++ later) (lines o elements ++ rest) := by
  induction shows_ with
  | nil => exact h
  | @cons e m elements marks first _ ih =>
    have line : lines o (e :: elements) ++ rest =
        o.indent.toList ++ (e.text.toList ++ (o.lineEnd.toList ++ (lines o elements ++ rest))) := by
      simp [lines]
    rw [line, List.flatMap_cons, List.append_assoc]
    exact (first.readsTags (ih.indented o.blanks_lineEnd)).readsAs.indented o.blanks_indent

end Page

namespace Mark

/-- The declaration in front of a document of its own. -/
def declaration : Mark where
  name := "?xml"
  attributes := [("version", "1.0"), ("encoding", "UTF-8")]
  ending := "?"

/-- The begin of a page. -/
def page : Mark where
  name := "svg"
  attributes := [("xmlns", "http://www.w3.org/2000/svg")]

theorem proper_declaration : declaration.Proper where
  unbroken := by decide
  name := by decide
  attributes := by decide
  ending := by decide
  bare _ := by contradiction

theorem proper_page : page.Proper where
  unbroken := by decide
  name := by decide
  attributes := by decide
  ending := by decide
  bare _ := rfl

end Mark

namespace Page

theorem toList_declaration (behind : List Char) :
    declaration.toList ++ behind = (Mark.declaration.tag [] behind).text := by
  have brackets : declaration.toList = '<' :: ((Mark.declaration.tag [] []).inside ++ ['>']) := by
    decide
  rw [brackets]
  simp [Tag.text, Mark.tag]

theorem looks_root (o : SvgOptions) (width height : Float) :
    ∃ looks, Looks looks ∧
      (root o width height).attributesText.toList = written (Mark.page.attributes ++ looks) := by
  have box : Inert
      ("0 0 " ++ coordinateText width ++ " " ++ coordinateText height).toList := by
    simp only [String.toList_append, inert_append]
    exact ⟨⟨⟨by decide, inert_coordinateText _⟩, by decide⟩, inert_coordinateText _⟩
  have look : Looks (root o width height).attributes.tail :=
    .cons (by decide) (inert_coordinateText _)
      (.cons (by decide) (inert_coordinateText _) (.cons (by decide) box looks_nil))
  exact Element.exists_looks rfl look looksText_empty

/-- A page reads as its begin, the tags of its elements, and its end. -/
theorem readsTags_text {p : Page} {marks : List Mark}
    (shows_ : List.Forall₂ Element.Shows p.elements marks) (o : SvgOptions)
    (width height : Float) :
    ReadsTags ((if o.standalone then [Mark.declaration] else []) ++
        Mark.page :: (marks.flatMap Mark.whole ++ [Mark.closing "svg"]))
      (p.text o width height).toList := by
  obtain ⟨looks, look, attributes⟩ := looks_root o width height
  have ended : ReadsAs [Mark.closing "svg"]
      ((root o width height).closing.toList ++ o.lineEnd.toList) := by
    rw [Element.toList_closing, ← List.append_nil (Tag.text _)]
    exact (readsTags_tag_append Mark.proper_page.closing looks_nil o.blanks_lineEnd
      ⟨[], rfl, by simp, .nil⟩).readsAs
  -- the blanks behind the begin of the page are those that its first line follows
  obtain ⟨gap, rest, same, blank, tags⟩ := (readsAs_lines (o := o) shows_ ended).indented
    o.blanks_lineEnd
  have opened :=
    Element.toList_opening (e := root o width height) (m := .page) rfl rfl attributes gap
  have begun := readsTags_tag_append Mark.proper_page look blank tags
  have whole : (p.text o width height).toList =
      (if o.standalone then declaration ++ o.lineEnd else "").toList ++
        ((Mark.page.tag looks gap).text ++ rest) := by
    rw [← opened, List.append_assoc, ← same]
    simp only [text, String.toList_append, toList_foldl_elements, List.append_assoc]
  rw [whole]
  cases o.standalone with
  | false => exact begun
  | true =>
    rw [if_pos rfl, if_pos rfl, String.toList_append, toList_declaration]
    exact readsTags_tag_append Mark.proper_declaration looks_nil o.blanks_lineEnd begun

/-- The tags of one name in the text of a page are those of its elements, unless it is the name of
an end or the page itself is written with it. -/
theorem tags_named {p : Page} {marks : List Mark}
    (shows_ : List.Forall₂ Element.Shows p.elements marks) (o : SvgOptions) (width height : Float)
    {name : String} (opens : ∀ ended, "/" ++ ended ≠ name) (inner : name ≠ "?xml" ∧ name ≠ "svg") :
    List.Forall₂ Mark.Fits (marks.filter fun m => m.name = name)
      ((tagsIn (p.text o width height).toList).filter fun t => t.name = name) := by
  obtain ⟨tags, whole, separate, fits⟩ := readsTags_text shows_ o width height
  have named := List.rel_filter (p := fun m : Mark => m.name = name)
    (q := fun t : Tag => t.name = name) (fun m t fit => by simp only [fit.name]) fits
  have declared : (if o.standalone then [Mark.declaration] else []).filter
      (fun m => m.name = name) = [] := by
    split
    · exact List.filter_cons_of_neg fun same => inner.1 (of_decide_eq_true same).symm
    · rfl
  have closed := List.filter_cons_of_neg (p := fun m : Mark => m.name = name) (l := [])
    (a := Mark.closing "svg") (fun same => opens "svg" (of_decide_eq_true same))
  rw [List.filter_append, declared, List.nil_append,
    List.filter_cons_of_neg (fun same => inner.2 (of_decide_eq_true same).symm),
    List.filter_append, closed, List.filter_nil, List.append_nil, Mark.filter_whole opens] at named
  rw [whole, tagsIn_flatMap_text separate]
  exact named

end Page

end TreeDiagram
