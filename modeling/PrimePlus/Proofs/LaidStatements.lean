import PrimePlus.Proofs.SettledStatements

/-!
Statements as they stand in a program that is laid out: settled code, a comment, or both.
-/

namespace PrimePlus.Program

open List Text Lexical
open Unicode (isBlank)

variable {comment : Text} {behindWord : Bool}

variable {list body : List (Lexeme Text)} {t tail lead : Text} {closed : Bool}

section Lines

theorem statementsOf_of_none {line : Text} (missed : comment? line = none) :
    statementsOf line = codeStatements line := by
  have missed : cutComment false '\x00' line = none := missed
  rw [statementsOf, splitComment, missed]
  rfl

theorem statementsOf_of_some {line code : Text} (ne : comment? line = some (code, comment)) :
    statementsOf line = addComment comment (codeStatements (trimEnd code)) := by
  have ne : cutComment false '\x00' line = some (code, comment) := ne
  rw [statementsOf, splitComment, ne]
  rfl

theorem visible_render {atom : Atom Text} (hl : atom.IsLawful)
    (quoted : AreQuoted atom.mark?.toList) :
    (∃ c r, atom.render id id = c :: r ∧ isBlank c = false) ∧
      ∃ front c, atom.render id id = front ++ [c] ∧ isBlank c = false := by
  cases atom with
  | word t =>
    obtain ⟨filled, worded⟩ := hl
    have vis {c : Char} (mem : c ∈ t) : isBlank c = false :=
      Unicode.not_isBlank_of_isWordChar (worded c mem)
    refine ⟨?_, _, _, (dropLast_append_getLast filled).symm, vis (getLast_mem filled)⟩
    obtain ⟨c, r, rfl⟩ := exists_cons_of_ne_nil filled
    exact ⟨c, r, rfl, vis mem_cons_self⟩
  | sign c => exact ⟨⟨c, [], rfl, hl.2.1⟩, [], c, rfl, hl.2.1⟩
  | held a =>
    obtain ⟨body, rfl, -⟩ := quoted.1
    exact ⟨⟨'"', body ++ ['"'], rfl, by decide⟩, '"' :: body, '"', rfl, by decide⟩

theorem exists_quoted_concat (hl : AreLawful behindWord list)
    (quoted : AreQuoted (marks list)) : ∀ lex ∈ list, ∃ u c,
      lex.atom.render id id = u ++ [c] ∧ isBlank c = false := by
  induction list generalizing behindWord with
  | nil => simp
  | cons lex r ih =>
    obtain ⟨-, first, -, hl⟩ := hl
    rw [marks_cons] at quoted
    obtain ⟨first_quoted, quoted⟩ := quoted.of_append
    exact forall_mem_cons.mpr ⟨(visible_render first first_quoted).2, ih hl quoted⟩

theorem trimEnd_write_append (hl : AreLawful behindWord list) (quoted : AreQuoted (marks list))
    {gap : Text} (hb : ∀ c ∈ gap, isBlank c) :
    trimEnd (write id list ++ gap) = write id list := by
  rw [trimEnd_append_of_isBlankText (all_eq_true.mpr hb),
    trimEnd_write (exists_quoted_concat hl quoted)]

end Lines

section Indented

def indentBy (lead : Text) : List (Lexeme Text) → List (Lexeme Text)
  | [] => []
  | lexeme :: rest => ⟨lead, lexeme.atom⟩ :: rest

theorem clearGap_indentBy (lead : Text) (list : List (Lexeme Text)) :
    clearGap (indentBy lead list) = clearGap list := by
  cases list <;> rfl

theorem atoms_indentBy (lead : Text) (list : List (Lexeme Text)) :
    (indentBy lead list).map Lexeme.atom = list.map Lexeme.atom := by
  cases list <;> rfl

theorem lawful_indentBy (hl : AreLawful false list) (hb : ∀ c ∈ lead, isBlank c) :
    AreLawful false (indentBy lead list) := by
  cases list with
  | nil => trivial
  | cons lex r => exact ⟨hb, hl.2.1, by simp, hl.2.2.2⟩

theorem write_indentBy (filled : list ≠ []) (bare : clearGap list = list) (lead : Text) :
    write id (indentBy lead list) = lead ++ write id list := by
  cases list with
  | nil => exact absurd rfl filled
  | cons lex r =>
    rw [← bare]
    simp [indentBy]

theorem write_ended_indentBy (filled : list ≠ []) (bare : clearGap list = list) (closed : Bool)
    (lead : Text) :
    write id (ended (indentBy lead list) closed) = lead ++ write id (ended list closed) := by
  rw [ended, write_append, write_indentBy filled bare, ended, write_append, append_assoc]

theorem marks_ended_indentBy (lead : Text) (list : List (Lexeme Text)) (closed : Bool) :
    marks (ended (indentBy lead list) closed) = marks (ended list closed) := by
  rw [ended, marks_append, marks_eq_of_atoms (atoms_indentBy lead list), ← marks_append, ← ended]

end Indented

section Glued

def IsGlued (line : Text) : Prop :=
  ∃ code c comment, comment? line = some (code ++ [c], comment) ∧ isBlank c = false

/-- A line with a space in front of its comment, if none was there and the comment is not all of
it. -/
def unglued (line : Text) : Text :=
  match comment? line with
  | some (code, comment) =>
    if code.getLast?.any fun c => !isBlank c then code ++ ' ' :: comment else line
  | none => line

variable {line : Text}

theorem unglued_of_none (missed : comment? line = none) : unglued line = line := by
  rw [unglued, missed]

theorem unglued_of_some {code : Text} (ne : comment? line = some (code, comment)) : unglued line =
      if code.getLast?.any fun c => !isBlank c then code ++ ' ' :: comment else line := by
  rw [unglued, ne]

theorem unglued_cases (line : Text) : unglued line = line ∧ ¬IsGlued line ∨
    ∃ code c more, line = code ++ c :: '/' :: '/' :: more ∧ IsGlued line ∧
      unglued line = code ++ c :: ' ' :: '/' :: '/' :: more := by
  cases cut : comment? line with
  | none =>
    refine .inl ⟨unglued_of_none cut, ?_⟩
    rintro ⟨code, c, comment, glued, -⟩
    cases cut.symm.trans glued
  | some parts =>
    obtain ⟨code, comment⟩ := parts
    obtain ⟨whole, more, rfl⟩ := eq_of_cutComment cut
    rw [unglued_of_some cut]
    split
    · next last =>
      rcases eq_nil_or_concat code with rfl | ⟨code, c, rfl⟩
      · cases last
      · rw [concat_eq_append] at cut whole
        exact .inr ⟨code, c, more, by simpa using whole, ⟨code, c, _, cut, by simpa using last⟩,
          by simp⟩
    · next ha =>
      refine .inl ⟨rfl, ?_⟩
      rintro ⟨code, c, comment, glued, vis⟩
      cases cut.symm.trans glued
      simp [vis] at ha

theorem unglued_eq_self_iff : unglued line = line ↔ ¬IsGlued line := by
  rcases unglued_cases line with ⟨eq, ha⟩ | ⟨code, c, more, whole, glued, spaced⟩
  · exact iff_of_true eq ha
  · refine iff_of_false (fun eq => ?_) (not_not_intro glued)
    have lengths := congrArg length (spaced.symm.trans (eq.trans whole))
    simp at lengths

theorem trimEnd_unglued (bare : trimEnd line = line) : trimEnd (unglued line) = unglued line := by
  rcases unglued_cases line with ⟨eq, -⟩ | ⟨code, c, more, whole, -, spaced⟩
  · rwa [eq]
  · have hs : isBlankText ('/' :: '/' :: more) = false := rfl
    have kept := trimEnd_append hs (code ++ [c])
    rw [append_assoc, singleton_append, ← whole, bare, whole, append_cons,
      append_cancel_left_eq] at kept
    have split := trimEnd_append hs (code ++ [c, ' '])
    rw [← kept] at split
    rw [spaced]
    simpa using split

theorem head?_unglued (line : Text) : (unglued line).head? = line.head? := by
  rcases unglued_cases line with ⟨eq, -⟩ | ⟨code, c, more, whole, -, spaced⟩
  · rw [eq]
  · rw [spaced, whole]
    cases code <;> rfl

theorem mem_unglued {c : Char} (mem : c ∈ unglued line) : c ∈ line ∨ c = ' ' := by
  rcases unglued_cases line with ⟨eq, -⟩ | ⟨code, c, more, whole, -, spaced⟩
  · exact .inl (eq ▸ mem)
  · rw [spaced] at mem
    rw [whole]
    simp only [mem_append, mem_cons] at mem ⊢
    tauto

end Glued

section Settled

theorem lawful_ended (hl : AreLawful behindWord body) (closed : Bool) :
    AreLawful behindWord (ended body closed) := by
  cases closed with
  | false => simpa [ended] using hl
  | true =>
    induction body generalizing behindWord with
    | nil =>
      exact ⟨by simp, ⟨by decide, by decide, by decide, by decide⟩, by simp [Atom.isWord], trivial⟩
    | cons lex r ih =>
      obtain ⟨hb, first, ha, hl⟩ := hl
      exact ⟨hb, first, ha, ih hl⟩

theorem exists_of_ended {front behind : List (Lexeme Text)} {gap : Text}
    (split : ended body closed = front ++ ⟨gap, .sign '/'⟩ :: behind) :
    ∃ rest, body = front ++ ⟨gap, .sign '/'⟩ :: rest := by
  rcases append_eq_append_iff.mp split with ⟨more, rfl, shape⟩ | ⟨more, rfl, shape⟩
  · cases closed with
    | true =>
      cases more with
      | nil => cases shape
      | cons lex more => simp at shape
    | false => simp at shape
  · cases more with
    | nil =>
      cases closed with
      | true => cases shape
      | false => cases shape
    | cons lex more =>
      obtain ⟨rfl, -⟩ := cons.inj shape
      exact ⟨more, rfl⟩

theorem gap_of_mem_settle (comma a v : Bool) (list : List (Lexeme Text)) :
    ∀ lex ∈ settle comma a v list, lex.gap = [] ∨ lex.gap = [' '] ∨
      lex.gap = [' ', ' '] ∧ lex.atom = .sign ':' := by
  induction list generalizing comma a v with
  | nil => simp [settle]
  | cons lex r ih =>
    refine forall_mem_cons.mpr ⟨?_, ih _ _ _⟩
    split
    · next opens =>
      have sign := isSign_eq_true (Bool.and_eq_true_iff.mp opens).1
      cases v with
      | true => exact .inr (.inr ⟨rfl, sign⟩)
      | false => exact .inr (.inl rfl)
    · split
      · exact .inr (.inl rfl)
      · split
        · exact .inl rfl
        · exact .inr (.inl rfl)

theorem gap_of_isSettled (settled : IsSettled body closed) :
    ∀ lex ∈ body, lex.gap = [] ∨ lex.gap = [' '] ∨ lex.gap = [' ', ' '] ∧ lex.atom = .sign ':' := by
  intro lex mem
  rw [← settled.spaced] at mem
  have inner := gap_of_mem_settle false false false body
  cases spaced : settle false false false body with
  | nil =>
    rw [spaced] at mem
    cases mem
  | cons first r =>
    rw [spaced] at mem inner
    rcases mem_cons.mp mem with rfl | later
    · exact .inl rfl
    · exact inner lex (mem_cons_of_mem _ later)

theorem statementsOf_comment (hb : ∀ c ∈ lead, isBlank c) (more : Text) :
    statementsOf (lead ++ '/' :: '/' :: more) = ['/' :: '/' :: more] := by
  have cut := comment?_append (fun c mem => ne_of_isBlank (hb c mem)) ('/' :: '/' :: more)
  have empty : trimEnd lead = [] := trimEnd_append_of_isBlankText (all_eq_true.mpr hb) []
  rw [statementsOf_of_some cut, append_nil, empty]
  rfl

namespace IsSettled

variable (settled : IsSettled body closed) (quoted : AreQuoted (marks (ended body closed)))
  (one : '\n' ∉ write id (ended body closed)) (hb : ∀ c ∈ lead, isBlank c)
  (noFeed : '\n' ∉ lead)

include settled quoted one hb noFeed

theorem codeStatements_eq :
    codeStatements (lead ++ write id (ended body closed)) = [write id (ended body closed)] := by
  have hl : AreLawful false (ended (indentBy lead body) closed) :=
    lawful_ended (lawful_indentBy settled.lawful hb) closed
  have text := write_ended_indentBy settled.filled settled.clearGap_eq closed lead
  have eq := marks_ended_indentBy lead body closed
  have feedless : '\n' ∉ write id (ended (indentBy lead body) closed) ++ [] := by
    rw [append_nil, text, mem_append, not_or]
    exact ⟨noFeed, one⟩
  have laid := codeStatements_write hl (eq ▸ quoted) (by simp) feedless
  rw [append_nil, text] at laid
  have cleared : clearGap (indentBy lead body) = body := by
    rw [clearGap_indentBy, settled.clearGap_eq]
  rw [laid, settled.statements_eq cleared]
  rfl

theorem statementsOf_commented {line gap : Text} (gap_blank : ∀ c ∈ gap, isBlank c)
    (cut : comment? line = some (lead ++ (write id (ended body closed) ++ gap), comment)) :
    statementsOf line = [write id (ended body closed) ++ ' ' :: comment] := by
  have trimmed : trimEnd (lead ++ (write id (ended body closed) ++ gap)) =
      lead ++ write id (ended body closed) := by
    rw [← append_assoc, ← write_ended_indentBy settled.filled settled.clearGap_eq]
    refine trimEnd_write_append (lawful_ended (lawful_indentBy settled.lawful hb) closed)
      ?_ gap_blank
    rw [marks_ended_indentBy]
    exact quoted
  rw [statementsOf_of_some cut, trimmed, settled.codeStatements_eq quoted one hb noFeed]
  rfl

/-- A settled statement on a line of its own stays, but for a space in front of a comment that
stands in it. -/
theorem statementsOf_eq :
    statementsOf (lead ++ write id (ended body closed)) =
      [unglued (write id (ended body closed))] := by
  have shift := comment?_append (fun c mem => ne_of_isBlank (hb c mem))
    (write id (ended body closed))
  cases cut : comment? (write id (ended body closed)) with
  | none =>
    rw [cut] at shift
    rw [statementsOf_of_none shift, unglued_of_none cut,
      settled.codeStatements_eq quoted one hb noFeed]
  | some parts =>
    obtain ⟨code, comment⟩ := parts
    have cut' : comment? (write id (ended body closed) ++ []) = some (code, comment) := by
      rw [append_nil, cut]
    obtain ⟨front, gap, behind, split, rfl, rfl, -, -⟩ :=
      exists_of_comment? (lawful_ended settled.lawful closed) quoted (by simp) cut'
    obtain ⟨rest, shape⟩ := exists_of_ended split
    have text : write id (ended body closed) =
        write id front ++ (gap ++ '/' :: '/' :: write id behind) := by
      rw [split]
      simp [Atom.render]
    rw [cut] at shift
    rw [unglued_of_some cut]
    by_cases missed : front = []
    · -- all of the statement is a comment
      subst missed
      have bare := settled.clearGap_eq
      rw [shape] at bare
      have noGap : gap = [] := (congrArg Lexeme.gap (cons.inj bare).1).symm
      subst noGap
      rw [text]
      exact statementsOf_comment hb _
    · have whole : ended front false = front := append_nil front
      have quoted' : AreQuoted (marks (ended front false)) := by
        rw [split, marks_append] at quoted
        rw [whole]
        exact quoted.of_append.1
      have oneLine' : '\n' ∉ write id (ended front false) := by
        rw [whole]
        intro mem
        apply one
        rw [text]
        exact mem_append_left _ mem
      have hl := lawful_ended settled.lawful closed
      rw [split] at hl
      have laid := (settled.front shape missed).statementsOf_commented quoted' oneLine' hb noFeed
        hl.of_append.2.1 (by rw [whole]; exact shift)
      rw [whole] at laid quoted'
      rw [laid]
      have mem : ⟨gap, .sign '/'⟩ ∈ body := by
        rw [shape]
        exact mem_append_right _ mem_cons_self
      rcases gap_of_isSettled settled _ mem with rfl | rfl | ⟨-, impossible⟩
      · obtain ⟨init, c, last, vis⟩ :=
          exists_write_concat (exists_quoted_concat hl.of_append.1 quoted') missed
        rw [append_nil, last, if_pos (by simp [vis])]
      · rw [if_neg (by simp [isBlank_space]), text]
        simp
      · cases impossible

end IsSettled

end Settled

section Laid

variable {s : Text}

/-- A statement as it stands in a program that is laid out: code, code with a comment, or a
comment. -/
inductive IsLaid : Text → Prop
  | code {body : List (Lexeme Text)} {closed : Bool} (settled : IsSettled body closed)
    (quoted : AreQuoted (marks (ended body closed))) : IsLaid (write id (ended body closed))
  | commented {body : List (Lexeme Text)} {closed : Bool} (settled : IsSettled body closed)
    (quoted : AreQuoted (marks (ended body closed))) (shut : AreClosed (ended body closed))
    (unslashed : Unslashed (ended body closed)) (more : Text) :
    IsLaid (write id (ended body closed) ++ ' ' :: '/' :: '/' :: more)
  | comment (more : Text) : IsLaid ('/' :: '/' :: more)

section

variable (settled : IsSettled body closed) (quoted : AreQuoted (marks (ended body closed)))
  (shut : AreClosed (ended body closed)) (unslashed : Unslashed (ended body closed)) (more : Text)

include settled quoted shut unslashed

theorem comment?_commented :
    comment? (write id (ended body closed) ++ ' ' :: '/' :: '/' :: more) =
      some (write id (ended body closed) ++ [' '], '/' :: '/' :: more) := by
  rw [comment?_write (lawful_ended settled.lawful closed) quoted shut unslashed (by simp)]
  rfl

theorem unglued_commented :
    unglued (write id (ended body closed) ++ ' ' :: '/' :: '/' :: more) =
      write id (ended body closed) ++ ' ' :: '/' :: '/' :: more := by
  rw [unglued_of_some (comment?_commented settled quoted shut unslashed more),
    if_neg (by simp [isBlank_space])]

end

theorem unglued_comment (more : Text) : unglued ('/' :: '/' :: more) = '/' :: '/' :: more := by
  rfl

theorem exists_trimEnd_slashes (u more : Text) : ∃ more',
    trimEnd (u ++ '/' :: '/' :: more) = u ++ '/' :: '/' :: more' := by
  have hs : isBlankText ('/' :: '/' :: more) = false := rfl
  rw [trimEnd_append hs]
  cases hb : isBlankText more with
  | true =>
    refine ⟨[], congrArg (u ++ ·) ?_⟩
    exact trimEnd_append_of_isBlankText hb ['/', '/']
  | false =>
    refine ⟨trimEnd more, congrArg (u ++ ·) ?_⟩
    exact trimEnd_append hb ['/', '/']

namespace IsLaid

variable (laid : IsLaid s)

include laid

theorem statementsOf_eq (one : '\n' ∉ s)
    (hb : ∀ c ∈ lead, isBlank c) (noFeed : '\n' ∉ lead) :
    statementsOf (lead ++ s) = [unglued s] := by
  cases laid with
  | code settled quoted => exact settled.statementsOf_eq quoted one hb noFeed
  | @commented body closed settled quoted shut unslashed more =>
    have cut := comment?_commented settled quoted shut unslashed more
    have shift := comment?_append (fun c mem => ne_of_isBlank (hb c mem))
      (write id (ended body closed) ++ ' ' :: '/' :: '/' :: more)
    rw [cut] at shift
    rw [unglued_commented settled quoted shut unslashed more]
    exact settled.statementsOf_commented quoted (mt (mem_append_left _) one) hb noFeed
      (by simp [isBlank_space]) shift
  | comment more => rw [statementsOf_comment hb, unglued_comment]

theorem exists_cons : ∃ c more, s = c :: more ∧ isBlank c = false := by
  have code {body : List (Lexeme Text)} {closed : Bool} (settled : IsSettled body closed)
      (quoted : AreQuoted (marks (ended body closed))) (more : Text) :
      ∃ c r, write id (ended body closed) ++ more = c :: r ∧ isBlank c = false := by
    have bare := settled.clearGap_eq
    obtain ⟨lex, r, rfl⟩ := exists_cons_of_ne_nil settled.filled
    have noGap : lex.gap = [] := (congrArg Lexeme.gap (cons.inj bare).1).symm
    rw [ended, cons_append, marks_cons] at quoted
    obtain ⟨⟨c, t, text, vis⟩, -⟩ := visible_render settled.lawful.2.1 quoted.of_append.1
    rw [ended, cons_append, write_cons, noGap, text]
    exact ⟨c, _, rfl, vis⟩
  cases laid with
  | code settled quoted => simpa using code settled quoted []
  | commented settled quoted _ _ more => exact code settled quoted _
  | comment more => exact ⟨'/', '/' :: more, rfl, by decide⟩

theorem trimEnd : IsLaid (trimEnd s) ∧ (unglued (trimEnd s) = trimEnd s ↔ unglued s = s) := by
  cases laid with
  | @code body closed settled quoted =>
    rw [trimEnd_write (exists_quoted_concat (lawful_ended settled.lawful closed) quoted)]
    exact ⟨.code settled quoted, .rfl⟩
  | @commented body closed settled quoted shut unslashed more =>
    obtain ⟨more', trimmed⟩ := exists_trimEnd_slashes (write id (ended body closed) ++ [' ']) more
    rw [append_assoc, append_assoc] at trimmed
    have ha (more : Text) := unglued_commented settled quoted shut unslashed more
    exact ⟨trimmed ▸ .commented settled quoted shut unslashed more',
      iff_of_true (trimmed ▸ ha more') (ha more)⟩
  | comment more =>
    obtain ⟨more', trimmed⟩ := exists_trimEnd_slashes [] more
    exact ⟨trimmed ▸ .comment more',
      iff_of_true (trimmed ▸ unglued_comment more') (unglued_comment more)⟩

end IsLaid

theorem mem_addComment {s : Text} {list : List Text} (mem : s ∈ addComment comment list) :
    s = comment ∨ s ∈ list ∨ ∃ last ∈ list, s = last ++ ' ' :: comment := by
  induction list with
  | nil => exact .inl (mem_singleton.mp mem)
  | cons statement r ih =>
    cases r with
    | nil => exact .inr (.inr ⟨statement, mem_cons_self, mem_singleton.mp mem⟩)
    | cons next r =>
      rcases mem_cons.mp mem with rfl | later
      · exact .inr (.inl mem_cons_self)
      · rcases ih later with eq | hi | ⟨last, hi, eq⟩
        · exact .inl eq
        · exact .inr (.inl (mem_cons_of_mem _ hi))
        · exact .inr (.inr ⟨last, mem_cons_of_mem _ hi, eq⟩)

variable {statement : List (Lexeme Text)} {line : Text}

theorem AreQuoted.of_mem_statements (quoted : AreQuoted (marks list))
    (mem : statement ∈ statements list) : AreQuoted (marks statement) := by
  rw [← marks_statements] at quoted
  obtain ⟨pre, behind, split⟩ := append_of_mem mem
  rw [split, flatMap_append] at quoted
  exact quoted.of_append.2.of_append.1

theorem AreClosed.of_mem_statements (closed : AreClosed list)
    (mem : statement ∈ statements list) : AreClosed statement := by
  intro opened
  apply closed
  rw [← marks_statements]
  exact mem_flatMap.mpr ⟨statement, mem, opened⟩

structure IsCode (line : Text) (list : List (Lexeme Text)) : Prop where
  lawful : AreLawful false list
  quoted : AreQuoted (marks list)
  inside : write id list ⊆ line
  code : ∃ tail, (∀ c ∈ tail, isBlank c = true) ∧ (splitComment line).1 = write id list ++ tail
  kind : comment? line = none ∧ statementsOf line = (statements list).map (write id) ∨
    ∃ more, '/' :: '/' :: more <:+ line ∧ AreClosed list ∧ Unslashed list ∧
      statementsOf line = addComment ('/' :: '/' :: more) ((statements list).map (write id))

theorem exists_isCode (clear : IsClear (splitComment line).1) (one : '\n' ∉ line) :
    ∃ list, IsCode line list := by
  obtain ⟨list, hl, ⟨tail, hb, code_eq⟩, quoted⟩ := exists_lexemes clear
  cases cut : comment? line with
  | none =>
    have whole := (splitComment_of_none cut).symm.trans code_eq
    refine ⟨list, hl, quoted, whole ▸ subset_append_left .., ⟨tail, hb, code_eq⟩, .inl ⟨cut, ?_⟩⟩
    rw [statementsOf_of_none cut, whole, codeStatements_write hl quoted hb (whole ▸ one)]
  | some parts =>
    obtain ⟨code, comment⟩ := parts
    obtain ⟨whole, more, rfl⟩ := eq_of_cutComment cut
    have bare : trimEnd code = write id list ++ tail :=
      (splitComment_of_some cut).symm.trans code_eq
    obtain ⟨blanks, all_blank, split⟩ := exists_blanks_trimEnd code
    rw [bare, append_assoc] at split
    have hi : write id list ⊆ line := by
      rw [whole, split]
      exact Subset.trans (subset_append_left ..) (subset_append_left ..)
    have gap_blank : ∀ c ∈ tail ++ blanks, isBlank c := by
      intro c mem
      exact (mem_append.mp mem).elim (hb c) (all_blank c)
    obtain ⟨shut, unslashed⟩ : AreClosed list ∧ Unslashed list := by
      rw [whole, split, append_assoc] at cut
      exact closed_and_unslashed_of_comment? hl quoted gap_blank cut
    refine ⟨list, hl, quoted, hi, ⟨tail, hb, code_eq⟩, .inr ⟨more, ?_, shut, unslashed, ?_⟩⟩
    · rw [whole]
      exact suffix_append ..
    · have noFeed : '\n' ∉ write id list ++ tail := by
        rw [← bare]
        intro mem
        apply one
        rw [whole]
        exact mem_append_left _ (mem_of_mem_trimEnd mem)
      rw [statementsOf_of_some cut, bare, codeStatements_write hl quoted hb noFeed]

namespace IsCode

variable (code : IsCode line list)

include code

theorem cases_of_mem (mem : s ∈ statementsOf line) :
    (∃ more, '/' :: '/' :: more <:+ line ∧ s = '/' :: '/' :: more) ∨
      ∃ statement ∈ statements list, s = write id statement ∨
        ∃ more, '/' :: '/' :: more <:+ line ∧ AreClosed list ∧ Unslashed list ∧
          s = write id statement ++ ' ' :: '/' :: '/' :: more := by
  rcases code.kind with ⟨-, eq⟩ | ⟨more, hi, shut, unslashed, eq⟩
  · rw [eq] at mem
    obtain ⟨statement, member, rfl⟩ := mem_map.mp mem
    exact .inr ⟨statement, member, .inl rfl⟩
  · rw [eq] at mem
    rcases mem_addComment mem with rfl | old | ⟨last, old, rfl⟩
    · exact .inl ⟨more, hi, rfl⟩
    · obtain ⟨statement, member, rfl⟩ := mem_map.mp old
      exact .inr ⟨statement, member, .inl rfl⟩
    · obtain ⟨statement, member, rfl⟩ := mem_map.mp old
      exact .inr ⟨statement, member, .inr ⟨more, hi, shut, unslashed, rfl⟩⟩

theorem closed_and_unslashed (closes : Lexical.IsClosed (splitComment line).1) :
    AreClosed list ∧ Unslashed list := by
  obtain ⟨tail, hb, code_eq⟩ := code.code
  rw [code_eq, isClosed_write_iff code.lawful code.quoted hb] at closes
  rcases code.kind with ⟨missed, -⟩ | ⟨-, -, -, unslashed, -⟩
  · rw [← splitComment_of_none missed, code_eq] at missed
    exact ⟨closes, unslashed_of_comment? code.lawful code.quoted closes missed⟩
  · exact ⟨closes, unslashed⟩

theorem comment?_statement (closes : AreClosed list) (unslashed : Unslashed list)
    (mem : statement ∈ statements list) {t : Text} (ha : t.head? ≠ some '/') :
    comment? (write id statement ++ t) =
      (comment? t).map fun cut => (write id statement ++ cut.1, cut.2) := by
  obtain ⟨body, closed, rfl, settled, -⟩ := exists_isSettled code.lawful mem
  exact comment?_write (lawful_ended settled.lawful closed)
    (AreQuoted.of_mem_statements code.quoted mem) (AreClosed.of_mem_statements closes mem)
    (apart_of_mem_statements (by decide) (by decide) unslashed mem) ha

end IsCode

section

variable (clear : IsClear (splitComment line).1) (one : '\n' ∉ line)

include clear one

theorem isLaid_of_mem_statementsOf (mem : s ∈ statementsOf line) : IsLaid s := by
  obtain ⟨list, code⟩ := exists_isCode clear one
  rcases code.cases_of_mem mem with ⟨more, -, rfl⟩ | ⟨statement, member, r⟩
  · exact .comment more
  · obtain ⟨body, closed, rfl, settled, -⟩ := exists_isSettled code.lawful member
    have quoted := AreQuoted.of_mem_statements code.quoted member
    rcases r with rfl | ⟨more, -, shut, unslashed, rfl⟩
    · exact .code settled quoted
    · exact .commented settled quoted (AreClosed.of_mem_statements shut member)
        (apart_of_mem_statements (by decide) (by decide) unslashed member) more

theorem not_isGlued_of_isClosed (closes : Lexical.IsClosed (splitComment line).1)
    (mem : s ∈ statementsOf line) : ¬IsGlued s := by
  obtain ⟨list, code⟩ := exists_isCode clear one
  obtain ⟨shut, unslashed⟩ := code.closed_and_unslashed closes
  refine unglued_eq_self_iff.mp ?_
  rcases code.cases_of_mem mem with
    ⟨more, -, rfl⟩ | ⟨statement, member, rfl | ⟨more, -, -, -, rfl⟩⟩
  · exact unglued_comment more
  · have missed := code.comment?_statement shut unslashed member (t := []) (by simp)
    rw [append_nil] at missed
    exact unglued_of_none missed
  · have behind := code.comment?_statement shut unslashed member
      (t := ' ' :: '/' :: '/' :: more) (by simp)
    rw [unglued_of_some behind, if_neg (by simp [isBlank_space])]

end

end Laid

section Characters

variable {kept : Char → Prop}

/-- A kind of characters to which all belong that the layout writes on its own account. -/
structure HasLayout (kept : Char → Prop) : Prop where
  space : kept ' '
  mark : kept ';'
  signs : ∀ sign ∈ digraphs, kept sign.2.2
  capitals : ∀ word ∈ "END".toList :: Construct.smallWords.map (map Char.toUpper),
    ∀ c ∈ word, kept c

variable (layout : HasLayout kept)

include layout

theorem HasLayout.spelling {w : Text} (all : ∀ c ∈ w, kept c) :
    ∀ c ∈ spelling w, kept c := by
  unfold Program.spelling
  split
  · exact layout.capitals _ mem_cons_self
  · rcases capitals_cases w with eq | ⟨small, mem, eq⟩
    · rwa [eq]
    · rw [eq]
      exact layout.capitals _ (mem_cons_of_mem _ (mem_map_of_mem mem))

theorem HasLayout.joined (all : ∀ c ∈ write id list, kept c) :
    ∀ lex ∈ joinSigns (respell Program.spelling list), ∀ c ∈ lex.atom.render id id, kept c := by
  refine joinSigns_induction (fun new => ∀ lex ∈ new, ∀ c ∈ lex.atom.render id id, kept c) ?_ ?_
  · intro lex mem
    obtain ⟨old, member, rfl⟩ := mem_map.mp mem
    have hi : ∀ c ∈ old.atom.render id id, kept c := fun c hs =>
      all c (mem_flatMap.mpr ⟨old, member, mem_append_right _ hs⟩)
    cases atom : old.atom with
    | word t =>
      rw [atom] at hi
      exact layout.spelling hi
    | sign d => rwa [atom] at hi
    | held a => rwa [atom] at hi
  · intro sign mem old new merged held
    refine merged.forall_mem held fun _ _ c hs => ?_
    exact mem_singleton.mp hs ▸ layout.signs sign mem

theorem HasLayout.of_mem_statements (hl : AreLawful false list)
    (all : ∀ c ∈ write id list, kept c) {statement : List (Lexeme Text)}
    (mem : statement ∈ statements list) : ∀ c ∈ write id statement, kept c := by
  obtain ⟨body, closed, rfl, settled, atoms⟩ := exists_isSettled hl mem
  have joined := layout.joined all
  have hi : ∀ c ∈ write id body, kept c := by
    intro c hs
    obtain ⟨lex, member, hs⟩ := mem_flatMap.mp hs
    rcases mem_append.mp hs with hb | vis
    · have space : c = ' ' := by
        rcases gap_of_isSettled settled lex member with gap | gap | ⟨gap, -⟩
        · rw [gap] at hb
          cases hb
        · rw [gap] at hb
          exact mem_singleton.mp hb
        · rw [gap] at hb
          simpa using hb
      exact space ▸ layout.space
    · obtain ⟨old, member, eq⟩ := mem_map.mp (atoms (mem_map_of_mem member))
      exact joined old member c (eq ▸ vis)
  intro c hs
  rw [ended, write_append] at hs
  rcases mem_append.mp hs with hs | last
  · exact hi c hs
  · cases closed with
    | true => exact mem_singleton.mp last ▸ layout.mark
    | false => cases last

theorem HasLayout.of_mem_statementsOf {line s : Text}
    (clear : IsClear (splitComment line).1) (one : '\n' ∉ line)
    (all : ∀ c ∈ line, kept c) (mem : s ∈ statementsOf line) : ∀ c ∈ s, kept c := by
  obtain ⟨list, code⟩ := exists_isCode clear one
  have inner {statement : List (Lexeme Text)} (member : statement ∈ statements list) :=
    layout.of_mem_statements code.lawful (fun c hs => all c (code.inside hs)) member
  rcases code.cases_of_mem mem with
    ⟨more, comment, rfl⟩ | ⟨statement, member, rfl | ⟨more, comment, -, -, rfl⟩⟩
  · exact fun c hs => all c (comment.subset hs)
  · exact inner member
  · intro c hs
    rcases mem_append.mp hs with first | behind
    · exact inner member c first
    · rcases mem_cons.mp behind with rfl | behind
      · exact layout.space
      · exact all c (comment.subset behind)

end Characters

end PrimePlus.Program
