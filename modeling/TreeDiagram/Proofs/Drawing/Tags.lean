import TreeDiagram.Proofs.Drawing.Inert
import TreeDiagram.Proofs.Text.Runs
/-!
# Tags as they are read

An opening bracket begins a tag wherever it stands, and the next closing bracket ends it. Inside a
tag stand its name and then attributes, whose values end where a quotation mark stands. Tags that
are written with inert values are read as they were written.
-/

namespace TreeDiagram

/-- The text between two brackets, and the text behind them up to the next opening bracket. -/
structure Tag where
  inside : List Char
  behind : List Char
  deriving DecidableEq, Repr

/-- The tags in a text: one for each opening bracket. -/
def tagsIn : List Char → List Tag
  | [] => []
  | c :: cs =>
    if c = '<' then
      { inside := cs.takeWhile (· != '>')
        behind := ((cs.dropWhile (· != '>')).drop 1).takeWhile (· != '<') } :: tagsIn cs
    else tagsIn cs

/-- Attributes as they are written. -/
def written (attributes : List (String × String)) : List Char :=
  attributes.flatMap fun a => (attributeText a.1 a.2).toList

/-- Attributes with inert names and values. -/
def InertAttributes (attributes : List (String × String)) : Prop :=
  ∀ a ∈ attributes, Inert a.1.toList ∧ Inert a.2.toList

instance (attributes : List (String × String)) : Decidable (InertAttributes attributes) :=
  List.decidableBAll (fun a : String × String => Inert a.1.toList ∧ Inert a.2.toList) attributes

/-- The attributes in a text that is cut at every quotation mark: in front of a value stand a blank,
the name, and a sign. -/
def attributesIn : List (List Char) → List (String × String)
  | front :: value :: later =>
    (String.ofList (front.drop 1).dropLast, String.ofList value) :: attributesIn later
  | _ => []

namespace Tag

/-- A tag with the text behind it. -/
def text (t : Tag) : List Char :=
  '<' :: (t.inside ++ '>' :: t.behind)

/-- The name of a tag. -/
def name (t : Tag) : String :=
  String.ofList (t.inside.takeWhile (· != ' '))

/-- The attributes of a tag in their order. -/
def attributes (t : Tag) : List (String × String) :=
  attributesIn ((t.inside.dropWhile (· != ' ')).splitOn '"')

/-- The value of an attribute. -/
def value? (t : Tag) (name : String) : Option String :=
  t.attributes.lookup name

/-- No bracket stands where it would begin or end another tag. -/
structure Separate (t : Tag) : Prop where
  inside : ∀ c ∈ t.inside, c ≠ '<' ∧ c ≠ '>'
  behind : ∀ c ∈ t.behind, c ≠ '<'

end Tag

theorem tagsIn_append {before : List Char} (without : ∀ c ∈ before, c ≠ '<') (rest : List Char) :
    tagsIn (before ++ rest) = tagsIn rest := by
  induction before with
  | nil => rfl
  | cons c later ih =>
    obtain ⟨other, others⟩ := List.forall_mem_cons.mp without
    rw [List.cons_append, tagsIn, if_neg other, ih others]

theorem tagsIn_text_append {t : Tag} (separate : t.Separate) {rest : List Char}
    (next : ∀ c, rest.head? = some c → c = '<') :
    tagsIn (t.text ++ rest) = t :: tagsIn rest := by
  have inside : IsRun (· != '>') t.inside ('>' :: (t.behind ++ rest)) :=
    ⟨fun c member => by simpa using (separate.inside c member).2, fun c first => by
      cases first
      rfl⟩
  have behind : IsRun (· != '<') t.behind rest :=
    ⟨fun c member => by simpa using separate.behind c member, fun c first => by
      simpa using next c first⟩
  have later : tagsIn (t.inside ++ '>' :: (t.behind ++ rest)) = tagsIn rest := by
    rw [tagsIn_append (fun c member => (separate.inside c member).1), tagsIn, if_neg (by decide),
      tagsIn_append separate.behind]
  have split : t.text ++ rest = '<' :: (t.inside ++ '>' :: (t.behind ++ rest)) := by
    simp [Tag.text]
  rw [split, tagsIn, if_pos rfl, inside.takeWhile_eq, inside.dropWhile_eq, List.drop_one,
    List.tail_cons, behind.takeWhile_eq, later]

/-- Separate tags are read one by one. -/
theorem tagsIn_flatMap_text {tags : List Tag} (separate : ∀ t ∈ tags, t.Separate) :
    tagsIn (tags.flatMap Tag.text) = tags := by
  induction tags with
  | nil => rfl
  | cons t later ih =>
    obtain ⟨this, others⟩ := List.forall_mem_cons.mp separate
    rw [List.flatMap_cons, tagsIn_text_append this, ih others]
    cases later with
    | nil => exact fun c first => by cases first
    | cons t' _ => exact fun c first => by cases first; rfl

theorem inertAttributes_nil : InertAttributes [] :=
  fun a member => by cases member

theorem InertAttributes.cons {name value : String} {later : List (String × String)}
    (inertName : Inert name.toList) (inertValue : Inert value.toList)
    (inert : InertAttributes later) : InertAttributes ((name, value) :: later) :=
  List.forall_mem_cons.mpr ⟨⟨inertName, inertValue⟩, inert⟩

theorem written_append (before behind : List (String × String)) :
    written (before ++ behind) = written before ++ written behind :=
  List.flatMap_append

theorem written_cons_append (a : String × String) (later : List (String × String))
    (rest : List Char) :
    written (a :: later) ++ rest =
      (' ' :: (a.1.toList ++ ['='])) ++ '"' :: (a.2.toList ++ '"' :: (written later ++ rest)) := by
  simp [written, attributeText]

theorem attributesIn_splitOn_written {attributes : List (String × String)}
    (inert : InertAttributes attributes) {ending : List Char}
    (inertEnding : Inert ending) :
    attributesIn ((written attributes ++ ending).splitOn '"') = attributes := by
  induction attributes with
  | nil =>
    have uncut : '"' ∉ ending := fun member => inertEnding.ne_quote _ member rfl
    rw [written, List.flatMap_nil, List.nil_append, List.splitOn_eq_singleton uncut, attributesIn]
    intro front value later impossible
    cases impossible
  | cons a later ih =>
    obtain ⟨⟨inertName, inertValue⟩, others⟩ := List.forall_mem_cons.mp inert
    have front : '"' ∉ ' ' :: (a.1.toList ++ ['=']) := by
      have name : '"' ∉ a.1.toList := fun member => inertName.ne_quote _ member rfl
      simp [name]
    have value : '"' ∉ a.2.toList := fun member => inertValue.ne_quote _ member rfl
    rw [written_cons_append, List.splitOn_append_cons_self_of_not_mem front,
      List.splitOn_append_cons_self_of_not_mem value, attributesIn, ih others]
    simp

/-- What is written as a name and attributes is read as that name and these attributes. -/
theorem Tag.read_of_written {t : Tag} {name : String} {attributes : List (String × String)}
    {ending : List Char} (whole : t.inside = name.toList ++ (written attributes ++ ending))
    (unbroken : ' ' ∉ name.toList)
    (inert : InertAttributes attributes) (inertEnding : Inert ending)
    (bare : attributes = [] → ending = []) : t.name = name ∧ t.attributes = attributes := by
  have run : IsRun (· != ' ') name.toList (written attributes ++ ending) := by
    refine ⟨fun c member => ?_, fun c first => ?_⟩
    · rw [bne_iff_ne]
      rintro rfl
      exact unbroken member
    · cases attributes with
      | nil =>
        rw [bare rfl] at first
        cases first
      | cons a later =>
        rw [written_cons_append] at first
        cases first
        rfl
  constructor
  · rw [Tag.name, whole, run.takeWhile_eq, String.ofList_toList]
  · rw [Tag.attributes, whole, run.dropWhile_eq, attributesIn_splitOn_written inert inertEnding]

example : (tagsIn "<line x=\"1\"/> <b>&lt;</b>".toList).map (fun t => (t.name, t.attributes)) =
    [("line", [("x", "1")]), ("b", []), ("/b", [])] := by
  decide +kernel

end TreeDiagram
