import PrimePlus.Proofs.ReadingSteps
import PrimePlus.Proofs.VerbatimSegments

/-!
Embedded blocks go through a compilation unchanged.
-/

namespace PrimePlus

open List DirectiveState Session
open Embedded (ppl python)
open Program (startsWithWord)
open Text

def leadingWord (line : Text) : Text :=
  line.takeWhile fun c => !Unicode.isBlank c

namespace Directive

def IsStart (line : Text) : Prop :=
  leadingWord line ∈ [python.marker, ppl.marker]

instance (line : Text) : Decidable (IsStart line) :=
  inferInstanceAs (Decidable (_ ∈ _))

section Read

variable {line : Text}

theorem head?_of_leadingWord {c : Char} (first : (leadingWord line).head? = some c) :
    line.head? = some c := by
  cases line with
  | nil => cases first
  | cons d r =>
    unfold leadingWord at first
    rw [takeWhile_cons] at first
    split at first
    · exact first
    · cases first

theorem IsStart.head? (starts : IsStart line) : line.head? = some '#' := by
  have sign : ∀ marker ∈ [python.marker, ppl.marker], marker.head? = some '#' := by
    decide
  exact head?_of_leadingWord (sign _ starts)

variable (fs : FileSystem) {st : DirectiveState} (env : Environment)

theorem read_isStart (starts : IsStart (trim line)) :
    ∃ language, read fs line st env =
      (.embeddedStart language, { st with embedded := language :: st.embedded }, env) := by
  have marked : ∃ language, st.marker? (trim line) =
      some (.embeddedStart language, { st with embedded := language :: st.embedded }) := by
    unfold marker?
    rw [← leadingWord]
    rcases mem_cons.mp starts with python | ppl
    · exact ⟨.python, if_pos python⟩
    · refine ⟨.ppl, ?_⟩
      rw [mem_singleton.mp ppl, if_neg (by decide), if_pos rfl]
  obtain ⟨language, marker⟩ := marked
  refine ⟨language, ?_⟩
  unfold read
  dsimp only
  rw [starts.head?, marker]
  rfl

theorem read_embedded_line (within : st.embedded ≠ []) (hu : ¬IsMarker (trim line)) :
    read fs line st env = (.none, st, env) := by
  have ne : (!st.embedded.isEmpty) := by simpa using within
  unfold read
  dsimp only
  rw [marker?_eq_none hu]
  split <;> rfl

theorem read_embedded_end {language : Embedded} {outer : List Embedded}
    (within : st.embedded = language :: outer) (ends : leadingWord (trim line) = endMarker) :
    read fs line st env = (.embeddedEnd language, { st with embedded := outer }, env) := by
  have sign : (trim line).head? = some '#' := head?_of_leadingWord (ends ▸ rfl)
  have marker : st.marker? (trim line) =
      some (.embeddedEnd language, { st with embedded := outer }) := by
    unfold marker?
    rw [← leadingWord, ends, if_neg (by decide), if_neg (by decide), if_pos rfl, within]
  unfold read
  dsimp only
  rw [sign, marker]
  rfl

end Read

end Directive

namespace Session

/-- Whether the next line belongs to an embedded block and is kept. -/
structure Embeds (s : Session) : Prop where
  uncommented : s.inComment = false
  taken : s.directives.isSkipping = false
  within : s.directives.embedded ≠ []

def directiveLine (s : Session) (raw : Text) : Text :=
  trim (Lexical.expandTabs s.env.config.tabWidth raw)

/-- What a line of an embedded block becomes. Markers lose the blanks around them, and the end
marker also what follows it; any other line is kept up to its line end. -/
def passed (s : Session) (raw : Text) : Text :=
  if Directive.IsStart (s.directiveLine raw) then s.directiveLine raw
  else if leadingWord (s.directiveLine raw) = endMarker then endMarker
  else (raw.reverse.dropWhile fun c => c == '\r' || c == '\n').reverse

section Embedded

variable {s : Session} (raw : Text)

theorem plainLine_of_embedded (s : Session) (taken : s.directives.isSkipping = false)
    (within : s.directives.embedded ≠ []) (line : Text) :
    s.plainLine raw line =
      s.emit (raw.reverse.dropWhile fun c => c == '\r' || c == '\n').reverse := by
  have hi : s.directives.language?.isSome := by
    rw [language?]
    cases embedded : s.directives.embedded with
    | nil => exact absurd embedded within
    | cons language outer => rfl
  rw [plainLine, if_pos hi, taken]
  rfl

section

variable (fs : FileSystem) (uncommented : s.inComment = false)
  (taken : s.directives.isSkipping = false)
  (within : Directive.IsStart (s.directiveLine raw) ∨ s.directives.embedded ≠ [])

include uncommented taken within

/-- A line of an embedded block, or one that starts a block, is generated as it is passed. Only an
end marker may leave no block open. -/
theorem ownLine_of_embedded :
    s.inclusion? fs raw = none ∧
      ∃ embedded, s.ownLine fs raw =
        { s with
          env := s.env.nextLine,
          directives := { s.directives with embedded := embedded },
          lines := s.lines ++ [s.passed raw] } ∧
        (embedded = [] → s.passed raw = endMarker) := by
  have trimmed : trim (s.directiveLine raw) = s.directiveLine raw := trim_trim _
  unfold inclusion? ownLine line
  dsimp only
  rw [uncommented, Environment.config_nextLine, ← directiveLine]
  -- a start marker opens a block also inside a block, so it is told apart first
  by_cases starts : Directive.IsStart (s.directiveLine raw)
  · obtain ⟨language, read⟩ : ∃ language, Directive.read fs (s.directiveLine raw)
        s.directives s.env.nextLine = _ :=
      Directive.read_isStart fs s.env.nextLine (trimmed.symm ▸ starts)
    have stays : s.passed raw = s.directiveLine raw := if_pos starts
    rw [read, stays]
    rw [taken]
    exact ⟨rfl, _, rfl, fun missed => by cases missed⟩
  · have within := within.resolve_left starts
    by_cases ends : leadingWord (s.directiveLine raw) = endMarker
    · obtain ⟨language, outer, embedded⟩ := exists_cons_of_ne_nil within
      have becomes : s.passed raw = endMarker := by rw [passed, if_neg starts, if_pos ends]
      rw [Directive.read_embedded_end fs _ embedded (trimmed.symm ▸ ends), becomes]
      rw [taken]
      exact ⟨rfl, outer, rfl, fun _ => rfl⟩
    · have hu : ¬Directive.IsMarker (trim (s.directiveLine raw)) := by
        rw [trimmed]
        intro marked
        rcases mem_append.mp (show leadingWord (s.directiveLine raw) ∈
          [python.marker, ppl.marker] ++ [endMarker] from marked) with start | last
        · exact starts start
        · exact ends (mem_singleton.mp last)
      have becomes : s.passed raw =
          (raw.reverse.dropWhile fun c => c == '\r' || c == '\n').reverse := by
        rw [passed, if_neg starts, if_neg ends]
      rw [Directive.read_embedded_line fs _ within hu, becomes]
      have kept := plainLine_of_embedded
        raw { s with env := s.env.nextLine, inComment := false } taken within
      exact ⟨rfl, s.directives.embedded, kept _, fun missed => absurd missed within⟩

theorem embeds_ownLine (continues : startsWithWord (s.passed raw) "#END" = false) :
    (s.ownLine fs raw).Embeds := by
  obtain ⟨-, embedded, after, only⟩ := ownLine_of_embedded raw fs uncommented taken within
  rw [after]
  refine ⟨uncommented, taken, fun missed => ?_⟩
  rw [only missed] at continues
  cases continues

theorem lines_ownLine_of_embedded : (s.ownLine fs raw).lines = s.lines ++ [s.passed raw] := by
  obtain ⟨-, embedded, after, -⟩ := ownLine_of_embedded raw fs uncommented taken within
  rw [after]

end

variable {raw}

theorem isLine_directiveLine (noFeed : '\n' ∉ raw) : IsLine (s.directiveLine raw) := by
  apply isLine_trimEnd
  intro mem
  obtain ⟨lead, start⟩ := exists_append_trimStart (Lexical.expandTabs s.env.config.tabWidth raw)
  have expanded : '\n' ∈ Lexical.expandTabs s.env.config.tabWidth raw :=
    start ▸ mem_append_right lead mem
  obtain ⟨c, hi, becomes⟩ := mem_flatMap.mp expanded
  split at becomes
  · have space := eq_of_mem_replicate becomes
    cases space
  · exact noFeed (mem_singleton.mp becomes ▸ hi)

theorem isLine_passed (noFeed : '\n' ∉ raw) : IsLine (s.passed raw) := by
  unfold passed
  split
  · exact isLine_directiveLine noFeed
  · split
    · decide
    · constructor
      · intro mem
        exact noFeed (mem_reverse.mp ((dropWhile_sublist _).subset (mem_reverse.mp mem)))
      · intro last
        rw [getLast?_reverse] at last
        have kept := head?_dropWhile_not (fun c => c == '\r' || c == '\n') raw.reverse
        rw [last] at kept
        cases kept

end Embedded

theorem opensBlock_passed {s : Session} {raw : Text}
    (starts : Directive.IsStart (s.directiveLine raw)) :
    Program.opensBlock (s.passed raw) ∧ startsWithWord (s.passed raw) "#END" = false := by
  have stays : s.passed raw = s.directiveLine raw := if_pos starts
  rw [stays, startsWithWord, trimStart_eq_self ?_]
  · have whole : s.directiveLine raw = leadingWord (s.directiveLine raw) ++
        (s.directiveLine raw).dropWhile fun c => !Unicode.isBlank c :=
      takeWhile_append_dropWhile.symm
    rcases mem_cons.mp starts with python | ppl
    · rw [whole, python]
      exact ⟨rfl, rfl⟩
    · rw [whole, mem_singleton.mp ppl]
      exact ⟨rfl, rfl⟩
  · intro c head
    rw [starts.head?] at head
    cases head
    decide

theorem spells_program (s : Session) {blocks : List (List Text)} {pre more : List Text}
    (areBlocks : ∀ block ∈ blocks, Program.IsBlock block) (generated : s.lines = pre ++ more)
    (contains : Program.Contains Program.Closes blocks more) : Program.Spells blocks s.program := by
  have output : Program.Spells blocks s.output := by
    have ls : s.output = ofLines pre ++ ofLines more := by
      rw [← ofLines_append, ← generated]
      rfl
    rw [ls]
    exact contains.spells.append_left (endsLine_ofLines pre)
  have headed : Program.Spells blocks (if s.env.config.pragmaPreamble then
      pragmaPreamble ++ '\n' :: s.output else s.output) := by
    split
    · rw [append_cons]
      exact output.append_left (endsLine_concat pragmaPreamble)
    · exact output
  unfold program
  dsimp only
  split
  · split
    · exact (headed.reformat areBlocks _).minify areBlocks
    · exact headed.minify areBlocks
  · split
    · exact headed.reformat areBlocks _
    · exact headed

end Session

namespace Reading

def HasLines (now : Reading) : Prop :=
  ∀ source ∈ now.ahead, ∀ raw ∈ source, '\n' ∉ raw

theorem hasLines_begin (cfg : Config) (source : Text) : (begin cfg source).HasLines := by
  intro ls mem raw hi
  rw [mem_singleton.mp mem] at hi
  exact newline_notMem_of_mem_lines hi

variable {now after : Reading}

theorem HasLines.next? {fs : FileSystem} (hasLines : now.HasLines)
    (step : now.next? fs = some after) : after.HasLines :=
  (step_of_next? step).forall_ahead hasLines fun _ _ _ _ => newline_notMem_of_mem_lines

theorem Reaches.hasLines {fs : FileSystem}
    (reaches : Reaches fs now after) (hasLines : now.HasLines) : after.HasLines := by
  induction reaches with
  | refl => exact hasLines
  | tail _ step ih => exact ih.next? step

/-- Lines are read from one moment to another up to a line that starts with the end marker. The list
holds what the lines in front of it become. -/
inductive ReadsOn (files : FileSystem) : Reading → List Text → Reading → Prop
  | last {raw : Text} {rest : List Text} {outer : List (List Text)} {s : Session}
      (ends : startsWithWord (s.passed raw) "#END" = true) :
      ReadsOn files ⟨(raw :: rest) :: outer, s⟩ [] ⟨rest :: outer, s.ownLine files raw⟩
  | line {raw : Text} {rest : List Text} {outer : List (List Text)} {s : Session}
      {inner : List Text} {after : Reading}
      (continues : startsWithWord (s.passed raw) "#END" = false)
      (more : ReadsOn files ⟨rest :: outer, s.ownLine files raw⟩ inner after) :
      ReadsOn files ⟨(raw :: rest) :: outer, s⟩ (s.passed raw :: inner) after
  | leave {source : List Text} {outer : List (List Text)} {s : Session} {inner : List Text}
      {after : Reading}
      (more : ReadsOn files ⟨source :: outer, { s with env := s.env.popSource }⟩ inner
        after) :
      ReadsOn files ⟨[] :: source :: outer, s⟩ inner after

/-- The embedded blocks that are met from a moment on, in order and as they are passed, each up to
the first line that starts with the end marker. A block starts with its marker, outside comments and
skipped regions; it may start inside a block. -/
inductive Meets (files : FileSystem) : Reading → List (List Text) → Prop
  | nil (now : Reading) : Meets files now []
  | block {now after : Reading} {opening : Text} {rest : List Text} {outer : List (List Text)}
      {s : Session} {inner : List Text} {blocks : List (List Text)}
      (reaches : Reaches files now ⟨(opening :: rest) :: outer, s⟩)
      (uncommented : s.inComment = false)
      (taken : s.directives.isSkipping = false)
      (starts : Directive.IsStart (s.directiveLine opening))
      (reads : ReadsOn files ⟨rest :: outer, s.ownLine files opening⟩ inner after)
      (more : Meets files after blocks) :
      Meets files now ((s.directiveLine opening :: inner) :: blocks)

section Run

variable {fs : FileSystem}

/-- Reading on in an open block generates what its lines become, and then a line that ends a block
in the program. -/
theorem ReadsOn.run {inner : List Text} (reads : ReadsOn fs now inner after)
    (embeds : now.session.Embeds) (hasLines : now.HasLines) :
    Reaches fs now after ∧
      (∀ line ∈ inner, IsLine line ∧ startsWithWord line "#END" = false) ∧
      ∃ last, Program.Closes last ∧ after.session.lines = now.session.lines ++ inner ++ [last] := by
  induction reads with
  | @last raw r outer s ends =>
    have noFeed := hasLines _ mem_cons_self raw mem_cons_self
    have alone := (ownLine_of_embedded raw fs embeds.uncommented embeds.taken
      (.inr embeds.within)).1
    refine ⟨.single (Step.own r outer alone).next?_eq, by simp, s.passed raw,
      ⟨isLine_passed noFeed, ends⟩, ?_⟩
    rw [append_nil]
    exact lines_ownLine_of_embedded raw fs embeds.uncommented embeds.taken (.inr embeds.within)
  | @line raw r outer s inner after continues more ih =>
    have noFeed := hasLines _ mem_cons_self raw mem_cons_self
    have alone := (ownLine_of_embedded raw fs embeds.uncommented embeds.taken
      (.inr embeds.within)).1
    have step := (Step.own r outer alone).next?_eq
    have ls := lines_ownLine_of_embedded raw fs embeds.uncommented embeds.taken (.inr embeds.within)
    obtain ⟨reaches, areLines, last, closes, generated⟩ := ih
      (embeds_ownLine raw fs embeds.uncommented embeds.taken (.inr embeds.within) continues)
      (hasLines.next? step)
    refine ⟨.head step reaches, ?_, last, closes, ?_⟩
    · intro line mem
      rcases mem_cons.mp mem with rfl | further
      · exact ⟨isLine_passed noFeed, continues⟩
      · exact areLines line further
    · rw [generated, ls]
      simp
  | @leave source outer s inner after more ih =>
    have step : next? fs _ = _ := (Step.leave source outer s).next?_eq
    obtain ⟨reaches, r⟩ := ih ⟨embeds.uncommented, embeds.taken, embeds.within⟩
      (hasLines.next? step)
    exact ⟨.head step reaches, r⟩

theorem Meets.contains {fin : Reading} {blocks : List (List Text)}
    (meets : Meets fs now blocks) (hasLines : now.HasLines) (finishes : Reaches fs now fin)
    (ends : fin.next? fs = none) :
    (∀ block ∈ blocks, Program.IsBlock block) ∧
      ∃ more, fin.session.lines = now.session.lines ++ more ∧
        Program.Contains Program.Closes blocks more := by
  induction meets with
  | nil now =>
    obtain ⟨more, whole⟩ := finishes.lines_prefix
    exact ⟨by simp, more, whole.symm, trivial⟩
  | @block now after opening r outer s inner blocks reaches uncommented taken starts reads
      more ih =>
    have reached := reaches.hasLines hasLines
    have noFeed := reached _ mem_cons_self opening mem_cons_self
    obtain ⟨alone, -⟩ := ownLine_of_embedded opening fs uncommented taken (.inl starts)
    have step := (Step.own r outer alone).next?_eq
    have ls := lines_ownLine_of_embedded opening fs uncommented taken (.inl starts)
    obtain ⟨opens, continues⟩ := opensBlock_passed starts
    have stays : s.passed opening = s.directiveLine opening := if_pos starts
    rw [stays] at ls opens continues
    have embeds := embeds_ownLine opening fs uncommented taken (.inl starts) (stays ▸ continues)
    obtain ⟨onwards, areLines, last, closes, generated⟩ := reads.run embeds (reached.next? step)
    -- what is generated later follows the line that ends the block
    have path : Reaches fs now after := reaches.trans (.head step onwards)
    obtain ⟨areBlocks, tail, whole, contains⟩ :=
      ih (path.hasLines hasLines) (path.before_last finishes ends)
    refine ⟨?_, ?_⟩
    · intro block mem
      rcases mem_cons.mp mem with rfl | further
      · refine ⟨⟨_, rfl, opens⟩, fun line hi => ?_, fun line hi => ?_⟩
        · rcases mem_cons.mp hi with rfl | within
          · exact isLine_directiveLine noFeed
          · exact (areLines line within).1
        · rcases mem_cons.mp hi with rfl | within
          · exact continues
          · exact (areLines line within).2
      · exact areBlocks block further
    · obtain ⟨lead, pre⟩ := reaches.lines_prefix
      refine ⟨lead ++ (s.directiveLine opening :: inner) ++ last :: tail, ?_,
        lead, last, tail, rfl, closes, contains⟩
      rw [whole, generated, ls, ← pre]
      simp

end Run

end Reading

/-- Every program that is compiled holds the embedded blocks of its source, in order and each in one
piece, and its segments keep their lines as they are, whatever the settings are. They keep no other
lines where those outside the blocks neither open a block nor are pragmas. -/
theorem embedded_block_survives {config : Config} {files : FileSystem} {source : Text}
    {compiled : Compiled} {blocks : List (List Text)}
    (compiles : compileTextWith config files source = .ok compiled)
    (meets : Reading.Meets files (.begin config source) blocks) :
    Program.Contains Program.Closes blocks (Text.lines compiled.text) ∧
      Program.Contains Program.ClosesVerbatim (blocks.map (map .verbatim))
        (Program.segments compiled.text) ∧
      ∀ kept, Program.Alternates (Text.lines compiled.text) kept →
        (Program.segments compiled.text).filterMap Program.Segment.kept? = kept := by
  obtain ⟨final, finishes, text⟩ := reaches_of_compileTextWith compiles
  obtain ⟨areBlocks, lines, generated, contains⟩ :=
    meets.contains (Reading.hasLines_begin config source) finishes rfl
  have spells := final.spells_program areBlocks generated contains
  rw [text]
  exact ⟨spells.contains areBlocks, (spells.contains areBlocks).segmentsFrom areBlocks false,
    fun _ alternates => alternates.filterMap_segmentsFrom⟩

/-- A block with a block inside, of which one line is indented by a tab, compiled with both
passes. -/
theorem embedded_block_survives_nested :
    let config : Config := { minify := true, reformat := true }
    let source : Text := "#PYTHON\n  x  =  1\n #PPL a\n\ty  =  2\n#END".toList
    ∃ compiled blocks, compileTextWith config {} source = .ok compiled ∧
      Reading.Meets {} (.begin config source) blocks ∧
      blocks = ["#PYTHON".toList, "  x  =  1".toList, "#PPL a".toList, "\ty  =  2".toList] :: [] ∧
      Program.Contains Program.Closes blocks (Text.lines compiled.text) := by
  intro config source
  cases compiles : compileTextWith config {} source with
  | error error =>
    have fine : (compileTextWith config {} source).isOk = true := by decide
    rw [compiles] at fine
    cases fine
  | ok compiled =>
    have meets : Reading.Meets {} (.begin config source) _ :=
      .block .refl rfl rfl (by decide)
        (.line (by decide) (.line (by decide) (.line (by decide) (.last (by decide))))) (.nil _)
    exact ⟨compiled, _, rfl, meets, by decide, (embedded_block_survives compiles meets).1⟩

/-- Behind the end of a block inside another the outer block is still open, but its lines are taken
for code when the program is made small. -/
theorem embedded_line_squeezed :
    (compileText { minify := true } "#PYTHON\n#PPL\ny\n#END\nx  =  1\n#END\n".toList).toOption.map
      Compiled.text = some "#PYTHON\n#PPL\ny\n#END\nx=1\n#END\n".toList := by
  decide

end PrimePlus
