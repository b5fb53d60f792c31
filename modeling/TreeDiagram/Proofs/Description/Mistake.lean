import TreeDiagram.Proofs.Description.Acceptance
import TreeDiagram.Proofs.Description.Words
/-!
# The place of the first mistake

A reading that fails at a word has read words that some description begins with. No description
begins with these words, the word itself and the one behind it: a step looks at two words only, so
the reading would fail for every description that begins like this, but descriptions are read to
their ends.
-/

namespace TreeDiagram

namespace TreeDescription

variable {K : Type} [Scalar K]

/-! ## The states of a reading -/

/-- The states that a reading goes through. -/
inductive Reaches (s : State K) : State K → Prop
  | start : Reaches s s
  | step {t next : State K} {now : Terminal} {behind : List Terminal} (earlier : Reaches s t)
      (words : t.rest = now :: behind) (taken : Step t now behind next) : Reaches s next

/-- No further step can be taken, although there are words left. -/
def Stuck (s : State K) : Prop :=
  ∃ now behind, s.rest = now :: behind ∧ ∀ next, ¬Step s now behind next

theorem Reaches.of_step {s next t : State K} {now : Terminal} {behind : List Terminal}
    (words : s.rest = now :: behind) (taken : Step s now behind next) (h : Reaches next t) :
    Reaches s t := by
  induction h with
  | start => exact .step .start words taken
  | step _ words' taken' ih => exact .step ih words' taken'

theorem run_of_reaches {s t : State K} (h : Reaches s t) : run s = run t := by
  induction h with
  | start => rfl
  | step _ words taken ih => exact ih.trans (run_of_step words taken)

/-- A reading comes to its end or fails in one of its states. -/
theorem reaches_of_run (s : State K) :
    (∃ last, run s = .ok last ∧ Reaches s last ∧ last.rest = []) ∨
      ∃ t now behind e, run s = .error e ∧ Reaches s t ∧ t.rest = now :: behind ∧
        step t now behind = .error e := by
  induction s using run.induct with
  | case1 s noWords => exact .inl ⟨s, run_of_done noWords, .start, noWords⟩
  | case2 s now behind words e failed =>
    exact .inr ⟨s, now, behind, e, run_of_error words failed, .start, words, failed⟩
  | case3 s now behind words next taken _ ih =>
    have taken' := step_eq_ok.mp taken
    rw [run_of_step words taken']
    rcases ih with ⟨last, done, reached, finished⟩ | ⟨t, now', behind', e, failed, reached, here⟩
    · exact .inl ⟨last, done, reached.of_step words taken', finished⟩
    · exact .inr ⟨t, now', behind', e, failed, reached.of_step words taken', here⟩

/-! ## Words that can be completed -/

/-- Words such that whatever matches the symbols completes them to a description. -/
def Completes (read : List Terminal) (symbols : List Symbol) : Prop :=
  ∀ tail, Matches symbols tail → Matches [.tree, .finish] (read ++ tail)

/-- A word that matches a symbol, or is a tree if one is due. -/
def standIn (symbol : Symbol) : Terminal :=
  match symbol with
  | .tree | .label => ⟨some (.label "A"), ⟨0, 0⟩⟩
  | .leftParen => ⟨some .leftParen, ⟨0, 0⟩⟩
  | .rightParen => ⟨some .rightParen, ⟨0, 0⟩⟩
  | .comma => ⟨some .comma, ⟨0, 0⟩⟩
  | .finish => ⟨none, ⟨0, 0⟩⟩

theorem matches_standIn (symbols : List Symbol) : Matches symbols (symbols.map standIn) := by
  induction symbols with
  | nil => exact .done
  | cons symbol symbols ih =>
    cases symbol with
    | tree => exact .tree (.leaf rfl) ih
    | _ => exact .word (by simp) rfl ih

theorem writable_of_standIn {symbol : Symbol} {label : String}
    (word : (standIn symbol).token = some (.label label)) : Writable label := by
  have letter : Writable "A" := ⟨by decide, List.all_eq_true.mp (by decide), by decide⟩
  cases symbol <;> cases word <;> exact letter

/-- A label alone is a tree. -/
theorem Matches.of_label {symbols : List Symbol} {ws : List Terminal}
    (h : Matches (.label :: symbols) ws) : Matches (.tree :: symbols) ws := by
  obtain ⟨w, rest, rfl, word, behind⟩ := Matches.of_word h (by simp)
  obtain ⟨label, isLabel⟩ := label_of_symbol word
  exact .tree (.leaf isLabel) behind

theorem stuck_of_drop {s next : State K} {now : Terminal} {behind : List Terminal}
    (words : s.rest = now :: behind) (ordered : Ordered s.symbols) {symbols : List Symbol}
    (due : s.symbols = .tree :: symbols) (word : now.symbol = .label)
    (left : next.symbols = symbols) (rest : next.rest = s.rest) : Stuck next := by
  refine ⟨now, behind, rest.trans words, fun last taken => ?_⟩
  rw [due] at ordered
  -- behind the tree that was given up neither a tree nor a label is due
  have notTree {below : Symbol} {symbols' : List Symbol} (top : next.symbols = below :: symbols') :
      below ≠ .tree ∧ below ≠ .label := by
    rw [← left, top] at ordered
    exact (List.isChain_cons_cons.mp ordered).1 rfl
  cases taken with
  | branch top => exact (notTree top).1 rfl
  | leaf top => exact (notTree top).1 rfl
  | drop top => exact (notTree top).1 rfl
  | label top => exact (notTree top).2 rfl
  | accept top _ notLabel here => exact notLabel (here.symm.trans word)

/-- What a step has gone past goes on to be completed by what is due behind it, unless a tree was
given up, and then the reading is stuck. -/
theorem Step.completes {s next : State K} {now : Terminal} {behind : List Terminal}
    (taken : Step s now behind next) (words : s.rest = now :: behind)
    (ordered : Ordered s.symbols) {read : List Terminal} (h : Completes read s.symbols) :
    ∃ passed, s.rest = passed ++ next.rest ∧
      (Completes (read ++ passed) next.symbols ∨ passed = [] ∧ Stuck next) := by
  have go {symbols : List Symbol} {due : Symbol} (top : s.symbols = due :: symbols)
      (notTree : due ≠ .tree) (word : now.symbol = due) : Completes (read ++ [now]) symbols := by
    intro tail later
    rw [List.append_assoc]
    exact h _ (top ▸ .word notTree word later)
  cases taken with
  | branch due =>
    refine ⟨[], rfl, .inl fun tail later => ?_⟩
    rw [List.append_nil]
    exact h tail (due ▸ Matches.of_branchSymbols later)
  | leaf due =>
    refine ⟨[], rfl, .inl fun tail later => ?_⟩
    rw [List.append_nil]
    exact h tail (due ▸ Matches.of_label later)
  | drop due word => exact ⟨[], rfl, .inr ⟨rfl, stuck_of_drop words ordered due word rfl rfl⟩⟩
  | label due word => exact ⟨[now], words, .inl (go due (by simp) word)⟩
  | accept due notTree _ word => exact ⟨[now], words, .inl (go due notTree word)⟩

theorem Reaches.ordered {s t : State K} (h : Reaches s t) (ordered : Ordered s.symbols) :
    Ordered t.symbols := by
  induction h with
  | start => exact ordered
  | step _ _ taken ih => exact taken.ordered ih

/-- What a reading has read can be completed. -/
theorem Reaches.completes {words : List Terminal} {t : State K}
    (h : Reaches (State.initial words) t) : ∃ read symbols, words = read ++ t.rest ∧
      Completes read symbols ∧ (symbols = t.symbols ∨ Stuck t) := by
  induction h with
  | start => exact ⟨[], _, rfl, fun _ later => later, .inl rfl⟩
  | @step t next now behind earlier rest taken ih =>
    obtain ⟨read, symbols, split, completes, same | ⟨now', behind', rest', stuck⟩⟩ := ih
    · subst same
      have ordered : Ordered t.symbols := earlier.ordered (by simp [State.initial, Ordered])
      obtain ⟨passed, behind, completes' | ⟨rfl, stuck⟩⟩ :=
        taken.completes rest ordered completes
      · refine ⟨read ++ passed, next.symbols, ?_, completes', .inl rfl⟩
        rw [split, behind, List.append_assoc]
      · exact ⟨read, t.symbols, by rw [split, behind]; rfl, completes, .inr stuck⟩
    · cases rest.symm.trans rest'
      exact absurd taken (stuck next)

theorem token_of_finish {w : Terminal} (same : w.symbol = .finish) : w.token = none := by
  unfold Terminal.symbol at same
  split at same
  · next token _ => cases token <;> cases same
  · next atEnd => exact atEnd

theorem tokens_of_matches {ws : List Terminal} (h : Matches [.tree, .finish] ws) :
    ∃ d : Derivation, ws.map Terminal.token = d.words.map some ++ [none] := by
  obtain ⟨d, ts, rest, rfl, derives, behind⟩ := Matches.of_tree h
  obtain ⟨last, nothing, rfl, isEnd, ended⟩ := Matches.of_word behind (by simp)
  cases ended
  exact ⟨d, by simp [derives_iff.mp derives, token_of_finish isEnd]⟩

theorem prefix_of_map_some {xs ys : List Token}
    (h : xs.map some <+: ys.map some ++ [none]) : xs <+: ys := by
  have words := h.filterMap id
  simpa [List.filterMap_map] using words

/-- The end comes last. -/
theorem eq_nil_of_end {before more : List (Option Token)} {ys : List Token}
    (h : before ++ none :: more = ys.map some ++ [none]) : more = [] := by
  rcases List.eq_nil_or_concat more with rfl | ⟨more', last, rfl⟩
  · rfl
  · rw [List.concat_eq_append, ← List.cons_append, ← List.append_assoc] at h
    have inWords := (List.append_inj' h rfl).1
    have member : none ∈ ys.map some := by
      rw [← inWords]
      simp
    simp at member

/-- A description begins with words that can be completed, and its other labels can be written. -/
theorem exists_derivation_of_completes {read : List Terminal} {symbols : List Symbol}
    (h : Completes read symbols) : ∃ d : Derivation,
      read.map Terminal.token <+: d.words.map some ++ [none] ∧
      ∀ label ∈ d.labels, some (.label label) ∈ read.map Terminal.token ∨ Writable label := by
  obtain ⟨d, tokens⟩ := tokens_of_matches (h _ (matches_standIn symbols))
  refine ⟨d, ?_, fun label member => ?_⟩
  · rw [← tokens, List.map_append]
    exact List.prefix_append _ _
  · have inWords : some (.label label) ∈ d.words.map some ++ [none] :=
      List.mem_append_left _ (List.mem_map_of_mem (Derivation.label_mem_words.mpr member))
    rw [← tokens, List.map_append] at inWords
    rcases List.mem_append.mp inWords with inRead | added
    · exact .inl inRead
    · obtain ⟨w, isStandIn, word⟩ := List.mem_map.mp added
      obtain ⟨symbol, -, rfl⟩ := List.mem_map.mp isStandIn
      exact .inr (writable_of_standIn word)

/-! ## Words that decide a step -/

/-- Of the words behind the one that comes now a step looks at the first one only. -/
theorem Step.uniform {s next : State K} {now : Terminal} {behind : List Terminal}
    (taken : Step s now behind next) :
    (next.rest = s.rest ∧ ∀ rest behind', behind'.head? = behind.head? →
      Step { s with rest } now behind' { next with rest }) ∨
    (next.rest = behind ∧ ∀ rest behind', behind'.head? = behind.head? →
      Step { s with rest } now behind' { next with rest := behind' }) := by
  cases taken with
  | branch due word follows popped placed =>
    exact .inl ⟨rfl, fun _ _ same => .branch due word (same ▸ follows) popped placed⟩
  | leaf due word follows popped placed =>
    exact .inl ⟨rfl, fun _ _ same => .leaf due word (same ▸ follows) popped placed⟩
  | drop due word follows popped =>
    exact .inl ⟨rfl, fun _ _ same => .drop due word (same ▸ follows) popped⟩
  | label due word popped => exact .inr ⟨rfl, fun _ _ _ => .label due word popped⟩
  | accept due notTree notLabel word =>
    exact .inr ⟨rfl, fun _ _ _ => .accept due notTree notLabel word⟩

theorem Reaches.exists_read {s t : State K} (h : Reaches s t) :
    ∃ read, s.rest = read ++ t.rest := by
  induction h with
  | start => exact ⟨[], rfl⟩
  | @step t next now behind _ words taken ih =>
    obtain ⟨read, split⟩ := ih
    rcases taken.uniform with ⟨kept, -⟩ | ⟨passed, -⟩
    · exact ⟨read, by rw [split, kept]⟩
    · exact ⟨read ++ [now], by rw [split, words, passed, List.append_assoc]; rfl⟩

/-- A reading goes through the same states whatever stands behind the second word ahead. -/
theorem Reaches.uniform {s t : State K} (h : Reaches s t) {read : List Terminal} {now : Terminal}
    {behind behind' : List Terminal} (words : s.rest = read ++ now :: behind)
    (rest : t.rest = now :: behind) (same : behind'.head? = behind.head?) :
    Reaches { s with rest := read ++ now :: behind' } { t with rest := now :: behind' } := by
  induction h generalizing read now behind behind' with
  | start =>
    have nothing : read = [] := List.append_left_eq_self.mp (words.symm.trans rest)
    rw [nothing]
    exact .start
  | @step t next now₀ behind₀ earlier words₀ taken ih =>
    rcases taken.uniform with ⟨kept, step⟩ | ⟨passed, step⟩
    · rw [kept, words₀] at rest
      cases rest
      exact .step (ih words words₀ same) rfl (step _ behind' same)
    · rw [rest] at passed
      subst passed
      obtain ⟨read₀, split⟩ := earlier.exists_read
      have before : read = read₀ ++ [now₀] := by
        rw [words, words₀, List.append_cons read₀] at split
        exact List.append_cancel_right split
      subst before
      rw [List.append_assoc] at words ⊢
      exact .step (ih words words₀ rfl) rfl (step _ (now :: behind') rfl)

theorem exists_error_of_stuck {s : State K} (stuck : Stuck s) : ∃ e, run s = .error e := by
  obtain ⟨now, behind, words, noStep⟩ := stuck
  cases outcome : step s now behind with
  | ok next => exact absurd (step_eq_ok.mp outcome) (noStep next)
  | error e => exact ⟨e, run_of_error words outcome⟩

/-- A reading that fails at a word fails whatever stands behind the next one. -/
theorem exists_error_of_behind {s t : State K} (h : Reaches s t) {read : List Terminal}
    {now : Terminal} {behind behind' : List Terminal} (words : s.rest = read ++ now :: behind)
    (rest : t.rest = now :: behind) (noStep : ∀ next, ¬Step t now behind next)
    (same : behind'.head? = behind.head?) :
    ∃ e, run { s with rest := read ++ now :: behind' } = .error e := by
  rw [run_of_reaches (h.uniform words rest same)]
  apply exists_error_of_stuck
  refine ⟨now, behind', rfl, fun next taken => ?_⟩
  -- a step there could be taken here as well
  rcases taken.uniform with ⟨-, step⟩ | ⟨-, step⟩
  · exact noStep _ (step t.rest behind same.symm)
  · exact noStep _ (step t.rest behind same.symm)

theorem not_prefix_of_error {t : State K} {read : List Terminal} {now : Terminal}
    {behind : List Terminal} (h : Reaches (State.initial (read ++ now :: behind)) t)
    (rest : t.rest = now :: behind) (noStep : ∀ next, ¬Step t now behind next)
    (last : behind = [] → now.token = none) (label : String) (l r : Derivation) :
    ¬(read ++ now :: behind.take 1).map Terminal.token <+:
      (Derivation.branch label l r).words.map some ++ [none] := by
  rintro ⟨more, whole⟩
  -- the same words with what the description goes on with
  let behind' : List Terminal := behind.take 1 ++ more.map fun token => ⟨token, ⟨0, 0⟩⟩
  have same : behind'.head? = behind.head? := by
    cases behind with
    | cons => rfl
    | nil =>
      rw [List.take_nil, List.map_append, List.append_assoc, List.map_singleton, last rfl,
        List.singleton_append] at whole
      simp [behind', eq_nil_of_end whole]
  obtain ⟨e, failed⟩ := exists_error_of_behind h rfl rest noStep same
  have tokens : (read ++ now :: behind').map Terminal.token =
      (Derivation.branch label l r).words.map some ++ [none] := by
    rw [← whole]
    simp [behind', Function.comp_def]
  obtain ⟨ws, ends, split, derives, isEnd⟩ := List.map_eq_append_iff.mp tokens
  obtain ⟨finish, nothing, rfl, noToken, noMore⟩ := List.map_eq_cons_iff.mp isEnd
  rw [List.map_eq_nil_iff] at noMore
  subst noMore
  have done := run_branch (K := K) (derives_iff.mpr derives) noToken
  have start : State.initial (K := K) (ws ++ [finish]) =
      { State.initial (read ++ now :: behind) with rest := read ++ now :: behind' } := by
    rw [← split]
    rfl
  rw [start, failed] at done
  cases done

theorem readAll_of_parse_error {cs : List Char} {words : List Lexeme} (split : lex cs = .ok words)
    {e : ParseError} (failed : parse (K := K) cs = .error e) :
    readAll (K := K) (Terminal.ofLexemes words (byteLength cs)) = .error e := by
  simp only [parse, split, bind, Except.bind] at failed
  split at failed
  · cases failed
  · next e' rejected =>
    split at failed
    · cases failed
    · cases failed
      exact rejected

/-- A text that is not read goes wrong at one of its words or at its end. -/
theorem exists_stuck_of_parse {cs : List Char} {words : List Lexeme} (split : lex cs = .ok words)
    {e : ParseError} (failed : parse (K := K) cs = .error e) :
    ∃ (t : State K) (now : Terminal) (behind : List Terminal),
      Reaches (State.initial (Terminal.ofLexemes words (byteLength cs))) t ∧
      t.rest = now :: behind ∧ (∀ next, ¬Step t now behind next) ∧ e.span = now.span := by
  have unaccepted : ¬∃ d : Derivation, words.map Lexeme.token = d.words := by
    rintro ⟨d, same⟩
    rw [parse_of_derivation split same] at failed
    cases failed
  have readFailed := readAll_of_parse_error split failed
  rcases reaches_of_run (State.initial (K := K) (Terminal.ofLexemes words (byteLength cs))) with
    ⟨last, done, reached, finished⟩ | ⟨t, now, behind, e', stopped, reached, rest, refused⟩
  · -- a reading that comes to the end has read a description
    obtain ⟨read, symbols, whole, completes, -⟩ := reached.completes
    rw [finished, List.append_nil] at whole
    obtain ⟨d, ⟨more, tokens⟩, -⟩ := exists_derivation_of_completes completes
    rw [← whole, map_token_ofLexemes, List.append_assoc, List.singleton_append] at tokens
    rw [eq_nil_of_end tokens] at tokens
    have same := List.map_injective_iff.mpr (Option.some_injective _)
      (List.append_inj' tokens rfl).1
    exact absurd ⟨d, same⟩ unaccepted
  · have same : e' = e := by
      rw [readAll, stopped] at readFailed
      exact Except.error.inj readFailed
    subst same
    refine ⟨t, now, behind, reached, rest, fun next taken => ?_, (offends_of_step refused).span⟩
    rw [step_eq_ok.mpr taken] at refused
    cases refused

/-- No description begins with the words up to the one behind a place where the reading fails. -/
theorem not_prefix_of_parse {cs : List Char} {words : List Lexeme} (split : lex cs = .ok words)
    {e : ParseError} (failed : parse (K := K) cs = .error e) {t : State K} {read : List Terminal}
    {now : Terminal} {behind : List Terminal}
    (reached : Reaches (State.initial (Terminal.ofLexemes words (byteLength cs))) t)
    (whole : Terminal.ofLexemes words (byteLength cs) = read ++ now :: behind)
    (rest : t.rest = now :: behind) (noStep : ∀ next, ¬Step t now behind next) (d : Derivation) :
    ¬((Terminal.ofLexemes words (byteLength cs)).take (read.length + 2)).map Terminal.token <+:
      d.words.map some ++ [none] := by
  cases d with
  | leaf label =>
    -- a label alone is all there is, and then it is accepted
    intro isPrefix
    have tokens : words.map Lexeme.token = (Derivation.leaf label).words := by
      rw [List.map_take, map_token_ofLexemes] at isPrefix
      match words with
      | [] => simp [Derivation.words] at isPrefix
      | [w] => simpa [Derivation.words] using isPrefix
      | w :: w' :: more => simp [Derivation.words] at isPrefix
    rw [parse_of_derivation split tokens] at failed
    cases failed
  | branch label l r =>
    rw [whole] at reached ⊢
    have last : behind = [] → now.token = none := by
      rintro rfl
      have ends := congrArg List.getLast? whole
      rw [Terminal.ofLexemes, List.getLast?_concat, List.getLast?_concat] at ends
      rw [← Option.some.inj ends]
    rw [List.take_length_add_append]
    exact not_prefix_of_error reached rest noStep last label l r

/-- Where a text that splits into words is not read, the words in front of the place are those that
some description begins with, and no description begins with the words up to the one behind the
place, or up to the end if this comes first. -/
theorem mistake_within_a_word {cs : List Char} {words : List Lexeme} (split : lex cs = .ok words)
    {e : ParseError} (failed : parse (K := K) cs = .error e) :
    (∃ (i : Nat) (t : Terminal), (Terminal.ofLexemes words (byteLength cs))[i]? = some t ∧
        e.span = t.span) ∧
      ∀ (i : Nat) (t : Terminal), (Terminal.ofLexemes words (byteLength cs))[i]? = some t →
        e.span = t.span →
        (∃ d : Derivation, (∀ label ∈ d.labels, Writable label) ∧
          (words.map Lexeme.token).take i <+: d.words) ∧
        ∀ d : Derivation,
          ¬((Terminal.ofLexemes words (byteLength cs)).take (i + 2)).map Terminal.token <+:
            d.words.map some ++ [none] := by
  obtain ⟨t, now, behind, reached, rest, noStep, place⟩ := exists_stuck_of_parse split failed
  obtain ⟨read, whole⟩ := reached.exists_read
  rw [rest] at whole
  change Terminal.ofLexemes words (byteLength cs) = read ++ now :: behind at whole
  have here : (Terminal.ofLexemes words (byteLength cs))[read.length]? = some now := by
    rw [whole, List.getElem?_append_right (Nat.le_refl _), Nat.sub_self]
    rfl
  refine ⟨⟨read.length, now, here, place⟩, ?_⟩
  intro i t found same
  -- words stand at different places, so the place names one of them
  have only : i = read.length := by
    have inside : i < ((Terminal.ofLexemes words (byteLength cs)).map Terminal.span).length := by
      rw [List.length_map]
      exact (List.getElem?_eq_some_iff.mp found).1
    apply (List.getElem?_inj inside (Terminal.nodup_spans split)).mp
    rw [List.getElem?_map, List.getElem?_map, found, here, Option.map_some, Option.map_some,
      ← same, place]
  subst only
  refine ⟨?_, not_prefix_of_parse split failed reached whole rest noStep⟩
  obtain ⟨read', symbols, whole', completes, -⟩ := reached.completes
  have sameRead : read' = read := by
    rw [whole, rest] at whole'
    exact (List.append_cancel_right whole').symm
  subst sameRead
  obtain ⟨d, isPrefix, labels⟩ := exists_derivation_of_completes completes
  have inText : read'.length ≤ words.length := by
    have length := congrArg List.length whole
    simp only [Terminal.ofLexemes, List.length_append, List.length_map, List.length_cons,
      List.length_nil] at length
    omega
  have tokens : read'.map Terminal.token =
      ((words.map Lexeme.token).take read'.length).map some := by
    have all := map_token_ofLexemes words (byteLength cs)
    rw [whole, List.map_append] at all
    have taken := congrArg (List.take read'.length) all
    rw [List.take_left' (List.length_map _), List.take_append_of_le_length (by simpa)] at taken
    rw [taken, List.map_take]
  rw [tokens] at isPrefix labels
  refine ⟨d, fun label member => ?_, prefix_of_map_some isPrefix⟩
  rcases labels label member with inRead | writable
  · obtain ⟨token, taken, isLabel⟩ := List.mem_map.mp inRead
    obtain ⟨w, inWords, rfl⟩ := List.mem_map.mp (List.mem_of_mem_take taken)
    exact (proper_of_lex split w inWords).writable label (Option.some.inj isLabel)
  · exact writable

/-- A description that ends before its parenthesis is closed. -/
def unclosed : List Lexeme :=
  [⟨.label "A", ⟨0, 1⟩⟩, ⟨.leftParen, ⟨1, 2⟩⟩, ⟨.label "B", ⟨2, 3⟩⟩, ⟨.comma, ⟨3, 4⟩⟩,
    ⟨.label "C", ⟨4, 5⟩⟩]

theorem parse_unclosed : parse (K := Rat) "A(B,C".toList =
    .error (unexpected ⟨some (.label "C"), ⟨4, 5⟩⟩ .rightParen) := by
  have words : lex "A(B,C".toList = .ok unclosed := by decide +kernel
  have failed : run (State.initial (K := Rat) (Terminal.ofLexemes unclosed 5)) =
      .error (unexpected ⟨some (.label "C"), ⟨4, 5⟩⟩ .rightParen) := by
    rw [run_of_step rfl (.branch rfl rfl rfl rfl rfl), run_of_step rfl (.label rfl rfl rfl),
      run_of_step rfl (.accept rfl (by decide) (by decide) rfl),
      run_of_step rfl (.leaf rfl rfl (.inl rfl) rfl rfl), run_of_step rfl (.label rfl rfl rfl),
      run_of_step rfl (.accept rfl (by decide) (by decide) rfl),
      -- the last label is given up, and then the parenthesis is due in its place
      run_of_step rfl (.drop rfl rfl rfl rfl), run_of_error rfl rfl]
  have length : byteLength "A(B,C".toList = 5 := rfl
  simp only [parse, words, length, readAll, failed, bind, Except.bind]
  rfl

theorem mistake_within_a_word_unclosed : lex "A(B,C".toList = .ok unclosed ∧
    parse (K := Rat) "A(B,C".toList =
      .error (unexpected ⟨some (.label "C"), ⟨4, 5⟩⟩ .rightParen) ∧
    (∃ d : Derivation,
      [.label "A", .leftParen, .label "B", .comma] <+: d.words) ∧
    ∀ d : Derivation, ¬[some (.label "A"), some .leftParen, some (.label "B"), some .comma,
      some (.label "C"), none] <+: d.words.map some ++ [none] := by
  have words : lex "A(B,C".toList = .ok unclosed := by decide +kernel
  obtain ⟨-, around⟩ := mistake_within_a_word words parse_unclosed
  obtain ⟨⟨d, -, begins⟩, never⟩ := around 4 ⟨some (.label "C"), ⟨4, 5⟩⟩ rfl rfl
  exact ⟨words, parse_unclosed, ⟨d, begins⟩, never⟩

end TreeDescription

end TreeDiagram
