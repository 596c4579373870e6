import PrimePlus.Proofs.Lexemes
import PrimePlus.Proofs.VerbatimSegments

/-!
The lines of code of a program and their literals.
-/

namespace PrimePlus.Lexical

open List Text

open Unicode (isBlank)

section Blanks

variable {blanks : Text}

theorem literalLength?_append_of_none {escaped : Bool} {t rest : Text}
    (unclosed : literalLength? escaped t = none) (free : '"' ∉ rest) :
    literalLength? escaped (t ++ rest) = none := by
  induction t generalizing escaped with
  | nil =>
    rw [nil_append]
    clear unclosed
    induction rest generalizing escaped with
    | nil => cases escaped <;> rfl
    | cons c rest ih =>
      have others (escaped : Bool) := @ih (mt (mem_cons_of_mem c) free) escaped
      cases escaped with
      | true => rw [literalLength?, others]; rfl
      | false =>
        have other : c ≠ '"' := fun quote => free (quote ▸ mem_cons_self)
        rw [literalLength?, if_neg other, others]
        rfl
  | cons c t ih =>
    cases escaped with
    | true =>
      rw [cons_append, literalLength?, ih (Option.map_eq_none_iff.mp unclosed)]
      rfl
    | false =>
      rw [literalLength?] at unclosed
      rw [cons_append, literalLength?]
      split at unclosed
      · cases unclosed
      · next other =>
        rw [if_neg other, ih (Option.map_eq_none_iff.mp unclosed)]
        rfl

theorem Cut.marks_append {xs : List Part} (cut : Cut xs) (free : '"' ∉ blanks) :
    (parts (xs.flatMap Part.text ++ blanks)).filterMap Part.mark? = xs.filterMap Part.mark? := by
  induction cut with
  | nil =>
    have whole := parts_append_of_quoteFree free []
    rw [append_nil] at whole
    rw [flatMap_nil, nil_append, whole]
    simp [parts, partsFrom, Part.mark?]
  | @code c rest o _ ih =>
    rw [flatMap_cons, append_assoc, Part.text, singleton_append, parts_cons_of_ne o]
    exact ih
  | @literal a rest literal _ ih =>
    rw [flatMap_cons, append_assoc, Part.text, parts_literal_append literal]
    exact congrArg (some a :: ·) ih
  | @unclosed u unclosed =>
    obtain ⟨b, rfl, opened⟩ := unclosed
    rw [flatMap_singleton, Part.text, cons_append, parts, partsFrom,
      literalLength?_append_of_none opened free]
    rfl

theorem literals_append_of_quoteFree (free : '"' ∉ blanks) (t : Text) :
    literals (t ++ blanks) = literals t := by
  have eq := (cut_parts t).marks_append free
  rw [flatMap_text_parts] at eq
  rw [literals_eq, eq, ← literals_eq]

theorem literals_quoteFree_append (free : '"' ∉ blanks) (t : Text) :
    literals (blanks ++ t) = literals t := by
  rw [literals, literals, parts_append_of_quoteFree free]
  simp [filterMap_map]

theorem literals_trimEnd (t : Text) : literals (trimEnd t) = literals t := by
  obtain ⟨gap, hb, whole⟩ := exists_blanks_trimEnd t
  have free : '"' ∉ gap := fun mem => (ne_of_isBlank (hb _ mem)).1 rfl
  rw [← literals_append_of_quoteFree free (trimEnd t), ← whole]

section

variable (hb : ∀ c ∈ blanks, isBlank c)

include hb

theorem cutComment_append_blanks (inString : Bool) (prev : Char) (t : Text) :
    cutComment inString prev (t ++ blanks) =
      (cutComment inString prev t).map fun cut => (cut.1, cut.2 ++ blanks) := by
  induction t generalizing inString prev with
  | nil =>
    show cutComment inString prev blanks = none
    induction blanks generalizing inString prev with
    | nil => rfl
    | cons c blanks ih =>
      have slash := (ne_of_isBlank (hb c mem_cons_self)).2.2
      rw [cutComment]
      dsimp only
      rw [ih (forall_mem_cons.mp hb).2]
      simp [slash]
  | cons c t ih =>
    have ha : ((t ++ blanks).head? == some '/') = (t.head? == some '/') := by
      cases t with
      | cons d t => rfl
      | nil =>
        have ho := head?_ne_slash hb
        simpa using ho
    rw [cons_append, cutComment, cutComment, ha]
    split
    · rfl
    · dsimp only
      rw [ih, Option.map_map, Option.map_map]
      rfl

theorem literals_splitComment_indent (t : Text) :
    literals (splitComment (blanks ++ t)).1 = literals (splitComment t).1 := by
  have hv := literals_quoteFree_append fun mem => (ne_of_isBlank (hb _ mem)).1 rfl
  have cut := comment?_append (fun c mem => ne_of_isBlank (hb c mem)) t
  cases hit : comment? t with
  | none =>
    rw [hit] at cut
    rw [splitComment_of_none hit, splitComment_of_none cut, hv]
  | some parts =>
    rw [hit] at cut
    rw [splitComment_of_some hit, splitComment_of_some cut, literals_trimEnd, literals_trimEnd, hv]

theorem literals_splitComment_append (t : Text) :
    literals (splitComment (t ++ blanks)).1 = literals (splitComment t).1 := by
  have cut := cutComment_append_blanks hb false '\x00' t
  cases hit : comment? t with
  | none =>
    have free : '"' ∉ blanks := fun mem => (ne_of_isBlank (hb _ mem)).1 rfl
    rw [show cutComment false '\x00' t = none from hit] at cut
    rw [splitComment_of_none hit, splitComment_of_none cut, literals_append_of_quoteFree free]
  | some parts =>
    obtain ⟨code, comment⟩ := parts
    rw [show cutComment false '\x00' t = some (code, comment) from hit] at cut
    rw [splitComment_of_some hit, splitComment_of_some cut]

end

theorem literals_splitComment_trimEnd (t : Text) :
    literals (splitComment (trimEnd t)).1 = literals (splitComment t).1 := by
  obtain ⟨blanks, hb, whole⟩ := exists_blanks_trimEnd t
  rw [← literals_splitComment_append hb (trimEnd t), ← whole]

end Blanks

end PrimePlus.Lexical

namespace PrimePlus.Program

open Unicode (isBlank)
open List
open Text (lines trimEnd trimStart)

section Reading

variable {blanks : Text}

/-- Whether a line is kept as it is, even outside embedded blocks. -/
def opensVerbatim (line : Text) : Bool :=
  opensBlock line || startsWithWord line "#pragma"

/-- Whether an embedded block is open behind a line, given whether one is open in front of it. -/
def staysEmbedded (embedded : Bool) (line : Text) : Bool :=
  if embedded && startsWithWord line "#END" then false else embedded || opensBlock line

def codeLines (t : Text) : List Text :=
  (codeOf (segments t)).flatMap lines

def lineLiterals (line : Text) : List Text :=
  Lexical.literals (Lexical.splitComment line).1

/-- The literals of the lines of code of a program, comments excluded. -/
def codeLiterals (t : Text) : List Text :=
  (codeLines t).flatMap lineLiterals

/-- The lines of code among lines, the first of which may stand in an embedded block. -/
def codeLinesFrom : Bool → List Text → List Text
  | _, [] => []
  | embedded, line :: rest =>
    if embedded || opensVerbatim line then codeLinesFrom (staysEmbedded embedded line) rest
    else line :: codeLinesFrom false rest

theorem segmentsFrom_cons (embedded : Bool) (l : Text) (r : List Text) :
    segmentsFrom embedded (l :: r) =
      if embedded || opensVerbatim l then
        .verbatim l :: segmentsFrom (staysEmbedded embedded l) r
      else consCode l (segmentsFrom false r) := by
  rw [segmentsFrom]
  cases embedded with
  | true => simp [staysEmbedded]
  | false => cases opens : opensBlock l <;> simp [opensVerbatim, staysEmbedded, opens]

variable {lines : List Text}

theorem codeLinesFrom_append (bare : ∀ l ∈ lines, opensVerbatim l = false) (rest : List Text) :
    codeLinesFrom false (lines ++ rest) = lines ++ codeLinesFrom false rest := by
  induction lines with
  | nil => rfl
  | cons l lines ih =>
    rw [cons_append, codeLinesFrom, bare l mem_cons_self, ih (forall_mem_cons.mp bare).2]
    rfl

/-- Segments as they are read from lines: code stands outside embedded blocks and no other code
follows it. -/
inductive IsRead : Bool → List Segment → Prop
  | nil {embedded : Bool} : IsRead embedded []
  | verbatim {embedded : Bool} {line : Text} {rest : List Segment}
      (kept : (embedded || opensVerbatim line) = true)
      (more : IsRead (staysEmbedded embedded line) rest) :
      IsRead embedded (.verbatim line :: rest)
  | code {t : Text} {rest : List Segment} (apart : ∀ u, rest.head? ≠ some (.code u))
      (more : IsRead false rest) : IsRead false (.code t :: rest)

theorem isRead_segmentsFrom (embedded : Bool) (lines : List Text) :
    IsRead embedded (segmentsFrom embedded lines) := by
  induction lines generalizing embedded with
  | nil => exact .nil
  | cons l r ih =>
    rw [segmentsFrom_cons]
    split
    · next kept => exact .verbatim kept (ih _)
    · next bare =>
      have outside : embedded = false := by
        cases embedded with
        | false => rfl
        | true => exact absurd rfl bare
      rw [outside]
      have others := ih false
      generalize segmentsFrom false r = xs at others
      cases xs with
      | nil => exact .code (by simp) .nil
      | cons segment xs =>
        cases segment with
        | code t =>
          cases others with
          | code ha more => exact .code ha more
        | verbatim first => exact .code (by simp) others

theorem IsRead.map {embedded : Bool} {xs : List Segment} (read : IsRead embedded xs)
    {image : Segment → Segment} {change : Text → Text}
    (kept : ∀ l, image (.verbatim l) = .verbatim l)
    (changed : ∀ t, image (.code t) = .code (change t)) : IsRead embedded (xs.map image) := by
  induction read with
  | nil => exact .nil
  | verbatim stays _ ih =>
    rw [map_cons, kept]
    exact .verbatim stays ih
  | @code t r ha _ ih =>
    rw [map_cons, changed]
    refine .code (fun u => ?_) ih
    cases r with
    | nil => simp
    | cons segment r =>
      cases segment with
      | code u => exact absurd rfl (ha u)
      | verbatim l => simp [kept]

def literalsFrom (embedded : Bool) (lines : List Text) : List Text :=
  (codeLinesFrom embedded lines).flatMap lineLiterals

theorem startsWithWord_trimEnd (line : Text) {word : String}
    (vis : ∀ c ∈ word.toList, isBlank c = false) :
    startsWithWord (trimEnd line) word = startsWithWord line word := by
  obtain ⟨blanks, hb, whole⟩ := Text.exists_blanks_trimEnd line
  have within (t : Text) : word.toList <+: t ++ blanks ↔ word.toList <+: t := by
    refine ⟨fun reaches => ?_, fun hi => hi.trans (prefix_append t blanks)⟩
    rcases prefix_or_prefix_of_prefix reaches (prefix_append t blanks) with hi | ⟨r, more⟩
    · exact hi
    · -- what is left of the word would be blank
      rw [← more, prefix_append_right_inj] at reaches
      cases r with
      | nil =>
        have eq : t = word.toList := (append_nil t).symm.trans more
        exact eq ▸ prefix_rfl
      | cons c r =>
        have hs := vis c (by rw [← more]; simp)
        cases hs.symm.trans (hb c (reaches.subset mem_cons_self))
  have gone : blanks.dropWhile isBlank = [] := dropWhile_eq_nil_iff.mpr hb
  have front : trimStart line = if (trimStart (trimEnd line)).isEmpty then []
      else trimStart (trimEnd line) ++ blanks := by
    have cut : (trimEnd line ++ blanks).dropWhile isBlank =
        if ((trimEnd line).dropWhile isBlank).isEmpty then blanks.dropWhile isBlank
        else (trimEnd line).dropWhile isBlank ++ blanks := dropWhile_append
    rw [← whole, gone] at cut
    exact cut
  rw [startsWithWord, startsWithWord, Text.startsWith, Text.startsWith, front, Bool.eq_iff_iff,
    isPrefixOf_iff_prefix, isPrefixOf_iff_prefix]
  split
  · next empty => rw [isEmpty_iff.mp empty]
  · exact (within _).symm

theorem opensVerbatim_trimEnd (line : Text) :
    opensVerbatim (trimEnd line) = opensVerbatim line := by
  have eq {word : String} (vis : word.toList.all (fun c => !isBlank c)) :=
    @startsWithWord_trimEnd line word fun c mem => by
      simpa using all_eq_true.mp vis c mem
  rw [opensVerbatim, opensBlock, eq (by decide), eq (by decide), eq (by decide)]
  rfl

theorem literalsFrom_cons (embedded : Bool) (l : Text) (rest : List Text) :
    literalsFrom embedded (l :: rest) =
      if embedded || opensVerbatim l then literalsFrom (staysEmbedded embedded l) rest
      else lineLiterals l ++ literalsFrom false rest := by
  rw [literalsFrom, codeLinesFrom]
  split
  · rfl
  · rfl

theorem lineLiterals_trimEnd (line : Text) : lineLiterals (trimEnd line) = lineLiterals line :=
  Lexical.literals_splitComment_trimEnd line

theorem literalsFrom_of_blank (hb : ∀ l ∈ lines, Text.isBlankText l)
    (embedded : Bool) : literalsFrom embedded lines = [] := by
  induction lines generalizing embedded with
  | nil => rfl
  | cons l rest ih =>
    have others := ih (forall_mem_cons.mp hb).2
    have missed : lineLiterals l = [] := Lexical.literals_splitComment_append
      (all_eq_true.mp (hb l mem_cons_self)) []
    rw [literalsFrom_cons, others, others, missed]
    split <;> rfl

theorem literalsFrom_trimEnd {blanks : List Text}
    (hb : ∀ line ∈ blanks, Text.isBlankText line) (front : List Text) (last : Text)
    (embedded : Bool) : literalsFrom embedded (front ++ [trimEnd last]) =
      literalsFrom embedded (front ++ last :: blanks) := by
  induction front generalizing embedded with
  | nil =>
    rw [nil_append, nil_append, literalsFrom_cons, literalsFrom_cons, opensVerbatim_trimEnd,
      literalsFrom_of_blank hb, literalsFrom_of_blank hb, literalsFrom_of_blank (by simp),
      literalsFrom_of_blank (by simp), lineLiterals_trimEnd]
  | cons line front ih =>
    rw [cons_append, cons_append, literalsFrom_cons, literalsFrom_cons, ih, ih]

theorem lines_append_feed {l : Text} (one : '\n' ∉ l) (rest : Text) :
    ∃ read blanks, l = read ++ blanks ∧ (∀ c ∈ blanks, isBlank c) ∧
      Text.lines (l ++ '\n' :: rest) = read :: Text.lines rest := by
  by_cases last : l.getLast? = some '\r'
  · obtain ⟨read, rfl⟩ := getLast?_eq_some_iff.mp last
    refine ⟨read, ['\r'], rfl, by simp [Text.isBlank_return], ?_⟩
    clear last
    induction read with
    | nil => rw [nil_append, singleton_append, lines]
    | cons c read ih =>
      have feed : c ≠ '\n' := fun same => one (by simp [same])
      have ha : c = '\r' → (read ++ ['\r'] ++ '\n' :: rest).head? ≠ some '\n' := by
        intro same
        cases read with
        | nil => simp
        | cons d read =>
          intro head
          exact one (by simp [Option.some.inj head])
      rw [cons_append, cons_append, Text.lines_cons feed ha, ih (mt (mem_cons_of_mem c) one)]
  · exact ⟨l, [], (append_nil l).symm, by simp, Text.IsLine.lines_append ⟨one, last⟩ rest⟩

theorem lineLiterals_append (hb : ∀ c ∈ blanks, isBlank c) (line : Text) :
    lineLiterals (line ++ blanks) = lineLiterals line :=
  Lexical.literals_splitComment_append hb line

theorem opensVerbatim_append (hb : ∀ c ∈ blanks, isBlank c) (line : Text) :
    opensVerbatim (line ++ blanks) = opensVerbatim line := by
  rw [← opensVerbatim_trimEnd, Text.trimEnd_append_of_isBlankText (all_eq_true.mpr hb),
    opensVerbatim_trimEnd]

theorem staysEmbedded_append (hb : ∀ c ∈ blanks, isBlank c) (embedded : Bool) (line : Text) :
    staysEmbedded embedded (line ++ blanks) = staysEmbedded embedded line := by
  have eq {word : String} (vis : word.toList.all (fun c => !isBlank c)) :
      startsWithWord (line ++ blanks) word = startsWithWord line word := by
    have hs : ∀ c ∈ word.toList, isBlank c = false := fun c mem => by
      simpa using all_eq_true.mp vis c mem
    rw [← startsWithWord_trimEnd _ hs, Text.trimEnd_append_of_isBlankText (all_eq_true.mpr hb),
      startsWithWord_trimEnd _ hs]
  rw [staysEmbedded, staysEmbedded, opensBlock, opensBlock, eq (by decide), eq (by decide),
    eq (by decide)]

theorem literalsFrom_ofLines (one : ∀ line ∈ lines, '\n' ∉ line) (embedded : Bool) :
    literalsFrom embedded (Text.lines (Text.ofLines lines)) = literalsFrom embedded lines := by
  induction lines generalizing embedded with
  | nil => rfl
  | cons line rest ih =>
    obtain ⟨read, blanks, rfl, hb, again⟩ :=
      lines_append_feed (one line mem_cons_self) (Text.ofLines rest)
    have others := ih (forall_mem_cons.mp one).2
    rw [Text.ofLines_cons, again, literalsFrom_cons, literalsFrom_cons, others, others,
      opensVerbatim_append hb, staysEmbedded_append hb, lineLiterals_append hb]

theorem literals_consCode {line : Text} (one : '\n' ∉ line) (xs : List Segment) :
    ((codeOf (consCode line xs)).flatMap Text.lines).flatMap lineLiterals =
      lineLiterals line ++ ((codeOf xs).flatMap Text.lines).flatMap lineLiterals := by
  have first (rest : Text) : (lines (line ++ '\n' :: rest)).flatMap lineLiterals =
      lineLiterals line ++ (lines rest).flatMap lineLiterals := by
    obtain ⟨read, blanks, rfl, hb, again⟩ := lines_append_feed one rest
    rw [again, flatMap_cons, lineLiterals_append hb]
  cases xs with
  | nil => simp [consCode, codeOf, lines, first]
  | cons segment rest =>
    cases segment with
    | code t => simp [consCode, codeOf, first]
    | verbatim o => simp [consCode, codeOf, lines, first]

theorem codeLiterals_eq (t : Text) : codeLiterals t = literalsFrom false (Text.lines t) := by
  have each {lines : List Text} (one : ∀ l ∈ lines, '\n' ∉ l) (embedded : Bool) :
      ((codeOf (segmentsFrom embedded lines)).flatMap Text.lines).flatMap lineLiterals =
        literalsFrom embedded lines := by
    induction lines generalizing embedded with
    | nil => rfl
    | cons l rest ih =>
      have others := ih (forall_mem_cons.mp one).2
      rw [segmentsFrom_cons, literalsFrom_cons]
      split
      · exact others _
      · rw [literals_consCode (one l mem_cons_self), others]
  exact each (fun l mem => Text.newline_notMem_of_mem_lines mem) false

end Reading

end PrimePlus.Program
