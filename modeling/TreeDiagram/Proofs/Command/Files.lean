import TreeDiagram.Command.Files
import TreeDiagram.Proofs.Text.Runs
/-!
# The path of a drawing beside its input

A path with a name of its own consists of what stands before this name, of the name, and of slashes
and current directories behind it. A drawing beside it has the same name, with `svg` in place of
what stands behind the last dot of the name, or behind the whole name if it has no extension.
-/

namespace TreeDiagram.Command.Path

/-! ## What is said of paths -/

/-- What can stand behind the last name of a path: slashes, and behind each of them perhaps the
current directory. -/
inductive Trailing : List Char → Prop
  | nil : Trailing []
  | slash {behind : List Char} (later : Trailing behind) : Trailing ('/' :: behind)
  | current {behind : List Char} (later : Trailing behind) : Trailing ('/' :: '.' :: behind)

/-- A path cut before and behind its last name, which is neither the current directory nor the one
above. -/
structure Named (path front name behind : List Char) : Prop where
  whole : path = front ++ name ++ behind
  front : ∀ c, front.getLast? = some c → c = '/'
  unbroken : '/' ∉ name
  proper : name ≠ [] ∧ name ≠ ['.'] ∧ name ≠ ['.', '.']
  behind : Trailing behind

/-- A name cut at its last dot, which is not the first letter of the name. -/
structure Extended (name stem extension : List Char) : Prop where
  whole : name = stem ++ '.' :: extension
  begun : stem ≠ []
  last : '.' ∉ extension

/-- The path of a drawing that is put beside an input. -/
inductive Beside : List Char → List Char → Prop
  /-- A name without an extension gets one. -/
  | bare {path front name behind : List Char} (named : Named path front name behind)
      (unextended : ∀ stem extension, ¬Extended name stem extension) :
      Beside path (front ++ name ++ ".svg".toList)
  /-- The extension of a name is exchanged. -/
  | exchanged {path front name behind stem extension : List Char}
      (named : Named path front name behind) (extended : Extended name stem extension)
      (kept : stem = ['.'] → behind ≠ []) : Beside path (front ++ stem ++ ".svg".toList)
  /-- A name at the end of its path whose second letter is its last dot, behind another one: without
  the extension the path leads to the directory above, and gets no other one. -/
  | above {path front extension : List Char}
      (named : Named path front ('.' :: '.' :: extension) []) (last : '.' ∉ extension) :
      Beside path (front ++ ['.', '.'])
  /-- A path without a name of its own stays as it is. -/
  | nameless {path : List Char}
      (unnamed : ∀ front name behind, ¬Named path front name behind) : Beside path path

/-- Two paths that say the same: both or neither begin at the top, both or neither begin with the
current directory, and both go through the same names. -/
structure Same (path other : List Char) : Prop where
  top : path.head? = some '/' ↔ other.head? = some '/'
  current : (path.splitOn '/').head? = some ['.'] ↔ (other.splitOn '/').head? = some ['.']
  names : (path.splitOn '/').filter (fun name => name ≠ [] ∧ name ≠ ['.']) =
    (other.splitOn '/').filter (fun name => name ≠ [] ∧ name ≠ ['.'])

/-! ## The last name -/

/-- A text cut behind the last place where a letter stands in it, if there is one. -/
structure CutBehind (x : Char) (cs front last : List Char) : Prop where
  whole : cs = front ++ last
  front : ∀ c, front.getLast? = some c → c = x
  without : x ∉ last

theorem exists_cutBehind (x : Char) (cs : List Char) : ∃ front last, CutBehind x cs front last := by
  have run := isRun_takeWhile (· != x) cs.reverse
  have both := List.takeWhile_append_dropWhile (p := (· != x)) (l := cs.reverse)
  refine ⟨(cs.reverse.dropWhile (· != x)).reverse, (cs.reverse.takeWhile (· != x)).reverse,
    ?_, ?_, ?_⟩
  · rw [← List.reverse_append, both, List.reverse_reverse]
  · intro c last
    rw [List.getLast?_reverse] at last
    simpa using run.ends c last
  · intro member
    simpa using run.inside x (List.mem_reverse.mp member)

theorem CutBehind.takeWhile_reverse {x : Char} {cs front last : List Char}
    (h : CutBehind x cs front last) : cs.reverse.takeWhile (· != x) = last.reverse := by
  have run : IsRun (· != x) last.reverse front.reverse := by
    constructor
    · intro c member
      rw [bne_iff_ne]
      rintro rfl
      exact h.without (List.mem_reverse.mp member)
    · intro c first
      rw [List.head?_reverse] at first
      rw [h.front c first]
      simp
  rw [h.whole, List.reverse_append, run.takeWhile_eq]

namespace Trailing

theorem append {behind later : List Char} (h : Trailing behind) (h' : Trailing later) :
    Trailing (behind ++ later) := by
  induction h with
  | nil => exact h'
  | slash _ ih => exact ih.slash
  | current _ ih => exact ih.current

/-- What is behind a name may be cut off anywhere. -/
theorem take {behind : List Char} (h : Trailing behind) (k : Nat) : Trailing (behind.take k) := by
  induction h generalizing k with
  | nil =>
    rw [List.take_nil]
    exact .nil
  | slash _ ih =>
    cases k with
    | zero => exact .nil
    | succ k => exact (ih k).slash
  | current _ ih =>
    match k with
    | 0 => exact .nil
    | 1 => exact Trailing.nil.slash
    | k + 2 => exact (ih k).current

theorem skipToName_append {behind : List Char} (h : Trailing behind) (rest : List Char) :
    skipToName (behind.reverse ++ rest) = skipToName rest := by
  induction h generalizing rest with
  | nil => rfl
  | slash _ ih =>
    rw [List.reverse_cons, List.append_assoc, ih]
    rfl
  | current _ ih =>
    rw [List.reverse_cons, List.reverse_cons, List.append_assoc, List.append_assoc, ih]
    rfl

end Trailing

/-- Only what stands behind a name is skipped. -/
theorem exists_skipped (cs : List Char) :
    ∃ skipped, cs = skipped ++ skipToName cs ∧ Trailing skipped.reverse := by
  fun_induction skipToName cs with
  | case1 cs ih =>
    obtain ⟨skipped, whole, trailing⟩ := ih
    refine ⟨'/' :: skipped, congrArg _ whole, ?_⟩
    rw [List.reverse_cons]
    exact trailing.append Trailing.nil.slash
  | case2 cs ih =>
    obtain ⟨skipped, whole, trailing⟩ := ih
    refine ⟨'.' :: '/' :: skipped, by rw [List.cons_append, List.cons_append, ← whole], ?_⟩
    rw [List.reverse_cons, List.reverse_cons, List.append_assoc]
    exact trailing.append Trailing.nil.current
  | case3 cs => exact ⟨[], rfl, .nil⟩

/-- No part of a name is skipped. -/
theorem skipToName_reverse_append {name : List Char} (unbroken : '/' ∉ name)
    (proper : name ≠ [] ∧ name ≠ ['.']) (front : List Char) :
    skipToName (name.reverse ++ front) = name.reverse ++ front := by
  have inside : ∀ c ∈ name.reverse, c ≠ '/' := by
    rintro c member rfl
    exact unbroken (List.mem_reverse.mp member)
  cases reversed : name.reverse with
  | nil => exact absurd (List.reverse_eq_nil_iff.mp reversed) proper.1
  | cons c cs =>
    rw [reversed] at inside
    rw [List.cons_append, skipToName]
    · intro rest same
      exact inside c List.mem_cons_self (List.cons.inj same).1
    · intro rest same
      obtain ⟨rfl, later⟩ := List.cons.inj same
      cases cs with
      | nil => exact proper.2 (List.reverse_eq_iff.mp reversed)
      | cons d cs =>
        exact inside d (List.mem_cons_of_mem _ List.mem_cons_self) (List.cons.inj later).1

theorem cut?_append {front name behind : List Char} (begun : ∀ c, front.getLast? = some c → c = '/')
    (unbroken : '/' ∉ name) (proper : name ≠ [] ∧ name ≠ ['.']) (trailing : Trailing behind) :
    cut? (front ++ name ++ behind) = if name = ['.', '.'] then none else some (front, name) := by
  have kept : (skipToName (front ++ name ++ behind).reverse).reverse = front ++ name := by
    rw [List.reverse_append, trailing.skipToName_append, List.reverse_append,
      skipToName_reverse_append unbroken proper, ← List.reverse_append, List.reverse_reverse]
  have last : (front ++ name).reverse.takeWhile (· != '/') = name.reverse :=
    CutBehind.takeWhile_reverse ⟨rfl, begun, unbroken⟩
  have before : (front ++ name).take ((front ++ name).length - name.length) = front := by
    rw [List.length_append, Nat.add_sub_cancel, List.take_left]
  unfold cut?
  dsimp only
  rw [kept, last, List.reverse_reverse, before]
  exact if_congr (by simp [proper]) rfl rfl

theorem exists_named_of_cut? {path front name : List Char} (cut : cut? path = some (front, name)) :
    ∃ behind, Named path front name behind := by
  obtain ⟨skipped, whole, trailing⟩ := exists_skipped path.reverse
  obtain ⟨front', name', last⟩ := exists_cutBehind '/' (skipToName path.reverse).reverse
  unfold cut? at cut
  dsimp only at cut
  rw [last.takeWhile_reverse, List.reverse_reverse] at cut
  split at cut
  · cases cut
  · next proper =>
    rw [last.whole, List.length_append, Nat.add_sub_cancel, List.take_left, Option.some.injEq,
      Prod.mk.injEq] at cut
    obtain ⟨rfl, rfl⟩ := cut
    refine ⟨skipped.reverse, ?_, last.front, last.without, ?_, trailing⟩
    · rw [← last.whole, ← List.reverse_append, ← whole, List.reverse_reverse]
    · simpa only [not_or] using proper

/-- The last name of a path is found where it stands. -/
theorem cut?_eq_some_iff {path front name : List Char} :
    cut? path = some (front, name) ↔ ∃ behind, Named path front name behind := by
  refine ⟨exists_named_of_cut?, fun ⟨behind, named⟩ => ?_⟩
  rw [named.whole, cut?_append named.front named.unbroken ⟨named.proper.1, named.proper.2.1⟩
    named.behind, if_neg named.proper.2.2]

/-! ## The extension -/

theorem take_append_dot (stem extension : List Char) :
    (stem ++ '.' :: extension).take
      ((stem ++ '.' :: extension).length - extension.length - 1) = stem := by
  have length : (stem ++ '.' :: extension).length - extension.length - 1 = stem.length := by
    rw [List.length_append, List.length_cons]
    omega
  rw [length, List.take_left]

theorem Extended.cutBehind {name stem extension : List Char} (h : Extended name stem extension) :
    CutBehind '.' name (stem ++ ['.']) extension where
  whole := by
    rw [h.whole]
    simp
  front c last := by
    rw [List.getLast?_concat] at last
    exact (Option.some.inj last).symm
  without := h.last

theorem stem_of_extended {name stem extension : List Char} (h : Extended name stem extension) :
    Path.stem name = stem := by
  unfold Path.stem
  dsimp only
  rw [h.cutBehind.takeWhile_reverse, List.length_reverse, h.whole, take_append_dot]
  simp [h.begun]

/-- A name is its own stem if it has no extension. -/
theorem stem_of_unextended {name : List Char}
    (unextended : ∀ stem extension, ¬Extended name stem extension) : Path.stem name = name := by
  obtain ⟨front, last, cut⟩ := exists_cutBehind '.' name
  unfold Path.stem
  dsimp only
  rw [cut.takeWhile_reverse, List.length_reverse, ite_eq_right_iff, Bool.and_eq_true,
    List.contains_iff_mem, Bool.not_eq_true', List.isEmpty_eq_false_iff]
  rintro ⟨dotted, begun⟩
  rcases List.eq_nil_or_concat front with rfl | ⟨stem, c, rfl⟩
  · rw [cut.whole] at dotted
    exact absurd dotted cut.without
  · rw [List.concat_eq_append] at cut
    obtain rfl : c = '.' := cut.front c List.getLast?_concat
    have whole : name = stem ++ '.' :: last := by
      rw [cut.whole]
      simp
    rw [whole, take_append_dot] at begun
    exact absurd ⟨whole, begun, cut.without⟩ (unextended _ _)

theorem extensionLength_of_extended {name stem extension : List Char}
    (h : Extended name stem extension) : extensionLength name = extension.length := by
  rw [extensionLength, stem_of_extended h, h.whole, List.length_append, List.length_cons]
  omega

theorem dropExtension_of_named {path front name behind : List Char}
    (named : Named path front name behind) :
    dropExtension path = path.take (path.length - extensionLength name) := by
  rw [dropExtension, cut?_eq_some_iff.mpr ⟨behind, named⟩]

/-- Where the extension is dropped, as many letters go from the end of the path as it has. They are
its own ones only if nothing stands behind the name. -/
theorem dropExtension_of_extended {path front name behind stem extension : List Char}
    (named : Named path front name behind) (extended : Extended name stem extension) :
    dropExtension path = front ++ (stem ++ '.' :: extension.take behind.length) ++
      behind.take (behind.length - extension.length) := by
  have parts : path = (front ++ stem ++ ['.']) ++ (extension ++ behind) := by
    rw [named.whole, extended.whole]
    simp
  have count : path.length - extension.length =
      (front ++ stem ++ ['.']).length + behind.length := by
    rw [parts]
    simp only [List.length_append]
    omega
  rw [dropExtension_of_named named, extensionLength_of_extended extended, count, parts,
    List.take_length_add_append, List.take_append]
  simp

/-- What is left of a path without its extension still has the name, up to its last dot. -/
theorem named_dropExtension {path front name behind stem extension : List Char}
    (named : Named path front name behind) (extended : Extended name stem extension)
    (kept : stem = ['.'] → behind ≠ []) :
    Named (dropExtension path) front (stem ++ '.' :: extension.take behind.length)
      (behind.take (behind.length - extension.length)) where
  whole := dropExtension_of_extended named extended
  front := named.front
  unbroken := by
    intro member
    apply named.unbroken
    rw [extended.whole]
    rcases List.mem_append.mp member with inStem | later
    · exact List.mem_append_left _ inStem
    · refine List.mem_append_right _ ?_
      rcases List.mem_cons.mp later with dot | inExtension
      · cases dot
      · exact List.mem_cons_of_mem _ (List.mem_of_mem_take inExtension)
  proper := by
    obtain ⟨c, cs, rfl⟩ := List.exists_cons_of_ne_nil extended.begun
    refine ⟨List.cons_ne_nil _ _, by simp, fun same => ?_⟩
    -- only two dots could be left, and something of the extension is left with them
    obtain ⟨rfl, later⟩ := List.cons.inj same
    obtain ⟨rfl, none_⟩ : cs = [] ∧ extension.take behind.length = [] := by
      cases cs with
      | nil => exact ⟨rfl, (List.cons.inj later).2⟩
      | cons d ds => simp at later
    rcases List.take_eq_nil_iff.mp none_ with nothing | empty
    · exact kept rfl (List.eq_nil_of_length_eq_zero nothing)
    · apply named.proper.2.2
      rw [extended.whole, empty]
      rfl
  behind := named.behind.take _

theorem extended_take {name stem extension : List Char} (h : Extended name stem extension)
    (k : Nat) : Extended (stem ++ '.' :: extension.take k) stem (extension.take k) where
  whole := rfl
  begun := h.begun
  last member := h.last (List.mem_of_mem_take member)

theorem dropExtension_of_unextended {path front name behind : List Char}
    (named : Named path front name behind)
    (unextended : ∀ stem extension, ¬Extended name stem extension) : dropExtension path = path := by
  rw [dropExtension_of_named named, extensionLength, stem_of_unextended unextended, Nat.sub_self,
    Nat.zero_sub, Nat.sub_zero, List.take_length]

theorem cut?_eq_none {path : List Char}
    (unnamed : ∀ front name behind, ¬Named path front name behind) : cut? path = none := by
  rw [Option.eq_none_iff_forall_ne_some]
  rintro ⟨front, name⟩ cut
  obtain ⟨behind, named⟩ := cut?_eq_some_iff.mp cut
  exact unnamed front name behind named

/-! ## The path of the drawing -/

theorem toList_withExtension_of_cut {path front name : List Char} {extension : String}
    (cut : cut? (dropExtension path) = some (front, name)) :
    (withExtension (String.ofList path) extension).toList =
      front ++ Path.stem name ++ '.' :: extension.toList := by
  rw [withExtension, String.toList_ofList, cut]
  simp

theorem toList_withExtension_of_uncut {path : List Char} (uncut : cut? (dropExtension path) = none)
    (extension : String) :
    (withExtension (String.ofList path) extension).toList = dropExtension path := by
  rw [withExtension, String.toList_ofList, uncut]
  simp

theorem withExtension_of_beside {path beside : List Char} (h : Beside path beside) :
    (withExtension (String.ofList path) "svg").toList = beside := by
  cases h with
  | bare named unextended =>
    have cut := cut?_eq_some_iff.mpr ⟨_, named⟩
    rw [← dropExtension_of_unextended named unextended] at cut
    rw [toList_withExtension_of_cut cut, stem_of_unextended unextended]
    rfl
  | exchanged named extended kept =>
    have cut := cut?_eq_some_iff.mpr ⟨_, named_dropExtension named extended kept⟩
    rw [toList_withExtension_of_cut cut, stem_of_extended (extended_take extended _)]
    rfl
  | @above front extension named last =>
    have extended : Extended ('.' :: '.' :: extension) ['.'] extension :=
      ⟨rfl, List.cons_ne_nil _ _, last⟩
    have dropped : dropExtension path = front ++ ['.', '.'] ++ [] := by
      rw [dropExtension_of_extended named extended, List.length_nil, List.take_zero, List.take_nil]
      rfl
    have uncut : cut? (front ++ ['.', '.'] ++ []) = none :=
      (cut?_append named.front (by decide) (by decide) .nil).trans (if_pos rfl)
    rw [← dropped] at uncut
    rw [toList_withExtension_of_uncut uncut, dropped, List.append_nil]
  | nameless unnamed =>
    have uncut := cut?_eq_none unnamed
    have dropped : dropExtension path = path := by rw [dropExtension, uncut]
    rw [toList_withExtension_of_uncut (by rw [dropped, uncut]), dropped]

/-- Every path has a path beside it. -/
theorem exists_beside (path : List Char) : ∃ beside, Beside path beside := by
  by_cases named : ∃ front name behind, Named path front name behind
  · obtain ⟨front, name, behind, named⟩ := named
    by_cases extended : ∃ stem extension, Extended name stem extension
    · obtain ⟨stem, extension, extended⟩ := extended
      by_cases kept : stem = ['.'] → behind ≠ []
      · exact ⟨_, .exchanged named extended kept⟩
      · obtain ⟨rfl, rfl⟩ : stem = ['.'] ∧ behind = [] := by simpa using kept
        obtain rfl := extended.whole
        exact ⟨_, .above named extended.last⟩
    · exact ⟨_, .bare named (by simpa using extended)⟩
  · exact ⟨path, .nameless (by simpa using named)⟩

/-- The path beside another one is what the drawing of an input is written to. -/
theorem beside_iff {path other : String} :
    Beside path.toList other.toList ↔ withExtension path "svg" = other := by
  constructor
  · intro beside
    have same := withExtension_of_beside beside
    rw [String.ofList_toList] at same
    exact String.toList_inj.mp same
  · rintro rfl
    obtain ⟨beside, h⟩ := exists_beside path.toList
    have same := withExtension_of_beside h
    rw [String.ofList_toList] at same
    rw [same]
    exact h

/-! ## Paths that are compared -/

theorem absolute_parts (path : String) :
    (parts path).absolute = true ↔ path.toList.head? = some '/' := by
  rw [parts, beq_iff_eq]

theorem ofList_eq_dot {name : List Char} : String.ofList name = "." ↔ name = ['.'] := by
  constructor
  · intro same
    rw [← String.toList_ofList (l := name), same]
    rfl
  · rintro rfl
    rfl

theorem current_parts (path : String) :
    (parts path).current = true ↔ (path.toList.splitOn '/').head? = some ['.'] := by
  have head : (pieces path).head? = (path.toList.splitOn '/').head?.map String.ofList :=
    List.head?_map
  rw [parts, beq_iff_eq, head]
  cases (path.toList.splitOn '/').head? with
  | none => simp
  | some name =>
    rw [Option.map_some, Option.some.injEq, Option.some.injEq]
    exact ofList_eq_dot

theorem names_parts (path : String) : (parts path).names =
    ((path.toList.splitOn '/').filter fun name => name ≠ [] ∧ name ≠ ['.']).map String.ofList := by
  have kept (name : List Char) : (String.ofList name != "" && String.ofList name != ".") =
      decide (name ≠ [] ∧ name ≠ ['.']) := by
    rw [Bool.eq_iff_iff, Bool.and_eq_true, bne_iff_ne, bne_iff_ne, decide_eq_true_eq]
    exact Iff.and (not_congr String.ofList_eq_empty_iff) (not_congr ofList_eq_dot)
  rw [parts, pieces, List.filter_map]
  simp only [Function.comp_def, kept]
  rfl

theorem parts_eq_iff {p q : Parts} :
    p = q ↔ (p.absolute = true ↔ q.absolute = true) ∧ (p.current = true ↔ q.current = true) ∧
      p.names = q.names := by
  cases p
  cases q
  rw [Parts.mk.injEq]
  exact and_congr Bool.eq_iff_iff (and_congr Bool.eq_iff_iff Iff.rfl)

/-- Paths are the same if they consist of the same. -/
theorem same_iff {path other : String} :
    Same path.toList other.toList ↔ parts path = parts other := by
  rw [parts_eq_iff, absolute_parts, absolute_parts, current_parts, current_parts, names_parts,
    names_parts, List.map_inj_right fun _ _ => String.ofList_inj.mp]
  exact ⟨fun h => ⟨h.top, h.current, h.names⟩, fun ⟨top, current, names⟩ => ⟨top, current, names⟩⟩

end TreeDiagram.Command.Path
