import PrimePlus.Proofs.HiddenLines
import PrimePlus.Proofs.LoweredLiterals

/-!
The literals of a source and those of the program that it is compiled to.
-/

namespace PrimePlus

open List Layout Construct
open Lexical
open Text

namespace Lexical

section Tabs

variable {wd : Nat} {t : Text}

theorem expandTabs_cons (wd : Nat) (c : Char) (t : Text) : expandTabs wd (c :: t) =
    (if c = '\t' then replicate wd ' ' else [c]) ++ expandTabs wd t :=
  flatMap_cons

theorem cutComment_expandTabs (ne : wd ≠ 0) (inString : Bool) (prev : Char) (t : Text) :
    cutComment inString prev (expandTabs wd t) = (cutComment inString prev t).map fun cut =>
      (expandTabs wd cut.1, expandTabs wd cut.2) := by
  obtain ⟨n, rfl⟩ := Nat.exists_eq_succ_of_ne_zero ne
  have gap (c : Char) (mem : c = ' ' ∨ c = '\t') (inString : Bool) (prev : Char) (t : Text) :
      cutComment inString prev (c :: t) =
        (cutComment inString ' ' t).map fun cut => (c :: cut.1, cut.2) := by
    have eq : cutComment inString ' ' t = cutComment inString c t := by
      have noEscape : c ≠ '\\' := by rcases mem with rfl | rfl <;> decide
      rw [cutComment_prev (by decide), cutComment_prev noEscape]
    rw [eq]
    rcases mem with rfl | rfl <;> simp [cutComment]
  have spaces (n : Nat) (inString : Bool) (prev : Char) (t : Text) :
      cutComment inString prev (replicate (n + 1) ' ' ++ t) =
        (cutComment inString ' ' t).map fun cut => (replicate (n + 1) ' ' ++ cut.1, cut.2) := by
    induction n generalizing prev with
    | zero => exact gap ' ' (.inl rfl) inString prev t
    | succ n ih =>
      rw [replicate_succ, cons_append, gap ' ' (.inl rfl), ih, Option.map_map]
      rfl
  have first (t : Text) : ((expandTabs (n + 1) t).head? == some '/') = (t.head? == some '/') := by
    cases t with
    | nil => rfl
    | cons c t => by_cases tab : c = '\t' <;> simp [expandTabs_cons, tab, replicate_succ]
  induction t generalizing inString prev with
  | nil => rfl
  | cons c t ih =>
    by_cases tab : c = '\t'
    · rw [expandTabs_cons, if_pos tab, spaces, ih, gap c (.inr tab)]
      simp [Function.comp_def, expandTabs_cons, tab]
    · rw [expandTabs_cons, if_neg tab, singleton_append, cutComment, cutComment, first]
      split
      · simp [expandTabs, tab]
      · dsimp only
        rw [ih]
        simp [Function.comp_def, expandTabs_cons, tab]

theorem Built.expandTabs (built : Built t) (free : ∀ a ∈ literals t, '\t' ∉ a) :
    Built (expandTabs wd t) ∧ literals (expandTabs wd t) = literals t := by
  induction built with
  | nil => exact ⟨.nil, rfl⟩
  | @code c t o _ ih =>
    rw [literals_cons_of_ne o] at free ⊢
    obtain ⟨built, eq⟩ := ih free
    have quoteFree : '"' ∉ (if c = '\t' then replicate wd ' ' else [c]) := by
      split <;> simp [Ne.symm o]
    obtain ⟨whole, same'⟩ := built.quoteFree_append quoteFree
    exact ⟨whole, same'.trans eq⟩
  | @literal a t literal _ ih =>
    rw [literals_literal_append literal] at free ⊢
    obtain ⟨first, others⟩ := forall_mem_cons.mp free
    obtain ⟨built, eq⟩ := ih others
    have kept : Lexical.expandTabs wd a = a := by
      have each : ∀ c ∈ a, (if c = '\t' then replicate wd ' ' else [c]) = [c] :=
        fun c mem => if_neg fun tab : c = '\t' => first (tab ▸ mem)
      rw [Lexical.expandTabs, flatMap_congr each]
      exact flatMap_singleton' a
    have parts : Lexical.expandTabs wd (a ++ t) = a ++ Lexical.expandTabs wd t := by
      rw [Lexical.expandTabs, flatMap_append]
      exact congrArg (· ++ _) kept
    rw [parts, literals_literal_append literal, eq]
    exact ⟨.literal literal built, rfl⟩

theorem literals_trim (t : Text) : literals (trim t) = literals t := by
  have hb : '"' ∉ t.takeWhile Unicode.isBlank := fun mem =>
    (ne_of_isBlank (mem_takeWhile_imp mem)).1 rfl
  have whole := literals_quoteFree_append hb (trimStart t)
  rw [trimStart, takeWhile_append_dropWhile] at whole
  exact (literals_trimEnd _).trans whole.symm

theorem slashes_of_splitComment (one : '\n' ∉ t) :
    ∀ comment ∈ (splitComment t).2, "//".toList <+: comment ∧ '\n' ∉ comment := by
  intro comment given
  unfold splitComment at given
  split at given
  · next code remark cut =>
    cases given
    obtain ⟨whole, more, rfl⟩ := eq_of_cutComment cut
    refine ⟨⟨more, rfl⟩, fun feed => one ?_⟩
    rw [whole]
    exact mem_append_right code feed
  · cases given

theorem literals_splitComment_expandTabs (ne : wd ≠ 0) (hc : IsClosed (splitComment t).1)
    (free : ∀ a ∈ literals (splitComment t).1, '\t' ∉ a) :
    literals (splitComment (expandTabs wd t)).1 = literals (splitComment t).1 := by
  have cut : comment? (expandTabs wd t) = (comment? t).map fun cut =>
      (expandTabs wd cut.1, expandTabs wd cut.2) := cutComment_expandTabs ne false '\x00' t
  cases hit : comment? t with
  | none =>
    rw [hit] at cut
    rw [splitComment_of_none hit] at hc free ⊢
    rw [splitComment_of_none cut, (hc.built.expandTabs free).2]
  | some parts =>
    obtain ⟨code, comment⟩ := parts
    rw [hit] at cut
    rw [splitComment_of_some hit] at hc free ⊢
    rw [splitComment_of_some cut, literals_trimEnd]
    rw [literals_trimEnd] at free ⊢
    obtain ⟨gap, hb, whole⟩ := exists_blanks_trimEnd code
    have gapless : '"' ∉ gap := fun mem => (ne_of_isBlank (hb _ mem)).1 rfl
    have built : Built (trimEnd code ++ gap) :=
      hc.built.append (by simpa using (Built.quoteFree_append gapless .nil).1)
    exact (Built.expandTabs (whole ▸ built) free).2

theorem newline_notMem_trim_expandTabs (one : '\n' ∉ t) : '\n' ∉ trim (expandTabs wd t) := by
  intro feed
  obtain ⟨c, hi, written⟩ := mem_flatMap.mp (dropWhile_subset _ (mem_of_mem_trimEnd feed))
  split at written
  · exact absurd (eq_of_mem_replicate written) (by decide)
  · exact one (mem_singleton.mp written ▸ hi)

end Tabs

end Lexical

theorem Program.lineLiterals_trim (line : Text) : lineLiterals (trim line) = lineLiterals line := by
  have hb : ∀ c ∈ line.takeWhile Unicode.isBlank, Unicode.isBlank c := fun c mem =>
    mem_takeWhile_imp mem
  have whole := literals_splitComment_indent hb (trimStart line)
  rw [trimStart, takeWhile_append_dropWhile] at whole
  exact (lineLiterals_trimEnd _).trans whole.symm

theorem Program.flatMap_lineLiterals_ofLines {ls : List Text} (one : ∀ t ∈ ls, '\n' ∉ t) :
    (lines (ofLines ls)).flatMap lineLiterals = ls.flatMap lineLiterals := by
  induction ls with
  | nil => rfl
  | cons l rest ih =>
    obtain ⟨here, later⟩ := forall_mem_cons.mp one
    have shape : ofLines (l :: rest) = l ++ '\n' :: ofLines rest := by
      simp [ofLines]
    obtain ⟨read, blanks, rfl, hb, ls⟩ := lines_append_feed here (ofLines rest)
    rw [shape, ls, flatMap_cons, flatMap_cons, ih later, lineLiterals_append hb]

open Program (lineLiterals)

namespace Construct

def withCalls (depth : Nat) (code : Text) : Text :=
  (conditional? depth code).getD code

def lower (depth : Nat) (code : Text) : Text :=
  operators (respell depth (withCalls depth code))

/-- Whether code comes to statements without a guard, a branch that starts with `do` or an
assignment with an operator. -/
def isSimple (depth : Nat) (code : Text) : Bool :=
  let t := withCalls depth code
  !guardPattern.isMatch t && !ifDoPattern.isMatch t &&
    !updatePattern.isMatch (comparisons (respell depth t)) &&
    (statements (lower depth code)).all isBare

theorem hidden_lower {d : Nat} {code : Text} (simple : isSimple d code) :
    hidden (lower d code) = hidden code ∧ ∀ s ∈ statements (lower d code), isBare s := by
  simp only [isSimple, Bool.and_eq_true, Bool.not_eq_true', all_eq_true] at simple
  obtain ⟨⟨⟨unguarded, whole⟩, alone⟩, bare⟩ := simple
  rw [lower, hidden_operators alone, hidden_respell d unguarded whole]
  exact ⟨hidden_conditional d code, bare⟩

theorem holds_lower {P : Text → Prop} (hs : Seamed P) (d : Nat) {code : Text}
    (whole : P code) : P (lower d code) := by
  refine holds_operators hs (holds_respell hs d ?_)
  cases hit : conditional? d code with
  | none => rwa [withCalls, hit]
  | some next =>
    rw [withCalls, hit]
    exact holds_of_conditional? hs hit whole

end Construct

theorem Layout.flatMap_lineLiterals_lower {line : Text} (one : '\n' ∉ line)
    (clear : IsClear (trim (splitComment line).1))
    (hc : Lexical.IsClosed (trim (splitComment line).1)) {level : Nat}
    (simple : isSimple level (collapseBlanks
      (protect [] (trim (splitComment line).1)).1)) (wd d : Nat) :
    let code := trim (splitComment line).1
    let laid := lay wd d (protect [] code).2 (splitComment line).2
      (lower level (collapseBlanks (protect [] code).1))
    laid.flatMap lineLiterals = lineLiterals line ∧ ∀ t ∈ laid, '\n' ∉ t := by
  have sealed := (seamed_sealed _).collapseBlanks (sealed_protect clear.unmarked hc)
  have collapsed (t : Text) : hidden (collapseBlanks t) = hidden t :=
    seamed_isPlainText.scans_collapse.hidden_eq (s := (true, false)) trivial
  obtain ⟨eq, bare⟩ := hidden_lower simple
  have inner : trim (splitComment line).1 ⊆ line := fun c mem =>
    splitComment_subset line (dropWhile_subset _ (mem_of_mem_trimEnd mem))
  obtain ⟨held, unbroken⟩ := flatMap_lineLiterals_lay clear hc
    (holds_lower (seamed_sealed _) level sealed) (eq.trans (collapsed _)) bare
    (fun feed => one (inner feed)) (slashes_of_splitComment one) wd d
  exact ⟨held.trans (literals_trim _), unbroken⟩

namespace Session

section Code

variable {s : Session}

theorem look_text (s : Session) (construct : Construct) (line : Text) :
    (s.look construct line).2.1 = ((construct.apply s.memory s.env line).line).getD line := by
  unfold look
  dsimp only
  split <;> simp [*]

theorem lookForAll_append (u back : List Construct) (s : Session) (l : Text) :
    lookForAll (u ++ back) s l = lookForAll back (lookForAll u s l).1 (lookForAll u s l).2 :=
  foldl_append

theorem lookForAll_lowerings (s : Session) (line : Text) :
    (lookForAll lowerings s line).2 =
      lower s.env.depth (lookForAll [.naming, .switch, .loop] s line).2 := by
  have kept := (s.keeps_lookForAll [.naming, .switch, .loop] line).depth
  have parts : lowerings = [.naming, .switch, .loop] ++
      ([.conditional] ++ ([.keyword] ++ [.operator])) :=
    rfl
  rw [parts, lookForAll_append]
  generalize lookForAll [.naming, .switch, .loop] s line = done at kept ⊢
  obtain ⟨next, line⟩ := done
  have changed (new line : Text) : (if new = line then none else some new).getD line = new := by
    split <;> simp [*]
  have written (next : Session) (line : Text) :
      (next.look .conditional line).2.1 = withCalls next.env.depth line := by
    rw [look_text, apply, withCalls]
  have spelt (next : Session) (line : Text) :
      (next.look .keyword line).2.1 = respell next.env.depth line := by
    rw [look_text, apply]
    dsimp only [keywords?]
    rw [changed]
  have signed (next : Session) (line : Text) : (next.look .operator line).2.1 = operators line := by
    rw [look_text, apply]
    dsimp only [operators?]
    rw [changed]
  have single (construct : Construct) (next : Session) (line : Text) :
      lookForAll [construct] next line =
        ((next.look construct line).1, (next.look construct line).2.1) :=
    rfl
  rw [lookForAll_append, lookForAll_append, single, single, single, signed, spelt, written,
    (next.keeps_look .conditional line).depth, ← kept, lower]

/-- Whether a line is one of statements: its literals are closed, no rule, word of the stash,
declaration or name is found in it, and no construct but conditionals, keywords and operators. -/
def readsStatements (s : Session) (line : Text) : Bool :=
  let code := trim (splitComment line).1
  let shown := collapseBlanks (protect [] code).1
  decide (IsClear code ∧ Lexical.IsClosed code) && s.remark line == (splitComment line).2 &&
    (s.plainCode? line).any fun next => next.2 == code &&
      (next.1.env.rewrite code).1 == shown &&
      (next.1.ready? (s.remark line) code).any fun handed =>
        (lookForAll [.naming, .switch, .loop] handed.session handed.line).2 == shown &&
          isSimple handed.session.env.depth shown

theorem store_of_ready? {comment : Option Text} {l : Text} {handed : Handed}
    (ready : s.ready? comment l = some handed) : handed.comment = comment ∧
      handed.store = (protect (s.env.rewrite l).2 (s.env.rewrite l).1).2 := by
  unfold ready? at ready
  dsimp only at ready
  split at ready
  · cases ready
  · cases ready
    exact ⟨rfl, rfl⟩

theorem Handed.lines_finish (handed : Handed) : ∃ wd d, handed.finish.lines =
    handed.session.lines ++ lay wd d handed.store handed.comment
      (lookForAll lowerings handed.session handed.line).2 := by
  unfold finish finishLine
  dsimp only
  rw [lines_followBlocks, lines_lookForAll]
  exact ⟨_, _, rfl⟩

structure Writes (s after : Session) (held : List Text) : Prop where
  config : after.env.config = s.env.config
  frame : after.frame = s.frame
  lines : ∃ new, after.lines = s.lines ++ new ∧ (∀ t ∈ new, '\n' ∉ t) ∧
    new.flatMap lineLiterals = held

theorem Writes.trans {next after : Session} {held held' : List Text} (first : s.Writes next held)
    (second : next.Writes after held') : s.Writes after (held ++ held') := by
  obtain ⟨new, ls, unbroken, eq⟩ := first.lines
  obtain ⟨new', lines', unbroken', same'⟩ := second.lines
  refine ⟨second.config.trans first.config, second.frame.trans first.frame, new ++ new', ?_, ?_, ?_⟩
  · rw [lines', ls, append_assoc]
  · exact forall_mem_append.mpr ⟨unbroken, unbroken'⟩
  · rw [flatMap_append, eq, same']

theorem writes_statements {raw l : Text} (uncommented : dropLead? l "/*".toList = none)
    (one : '\n' ∉ l) (reads : s.readsStatements l) :
    s.Writes (s.plainLine raw l) (lineLiterals l) := by
  have frame := s.frame_plainLine raw uncommented
  have passes := s.passes_plainCode? l raw
  simp only [readsStatements, Bool.and_eq_true, decide_eq_true_eq, beq_iff_eq, Option.any_eq_true]
    at reads
  obtain ⟨⟨⟨clear, hc⟩, remark⟩, ⟨next, left⟩, hit, ⟨⟨rfl, resolved⟩, handed, ready, hs, simple⟩⟩ :=
    reads
  rw [hit] at passes
  generalize s.plainLine raw l = after at frame passes ⊢
  cases passes with
  | given kept eq =>
    have further := next.passes_ready? (s.remark l) (trim (splitComment l).1)
    rw [ready] at further
    generalize next.resolveLine (s.remark l) _ = after at frame further ⊢
    cases further with
    | given kept' same' =>
      obtain ⟨comment, st⟩ := store_of_ready? ready
      have sealed := (seamed_sealed _).collapseBlanks (sealed_protect clear.unmarked hc)
      rw [resolved, sealed.protect_eq] at st
      obtain ⟨wd, d, ls⟩ := handed.lines_finish
      rw [lookForAll_lowerings, hs, st, comment, remark, same', eq] at ls
      obtain ⟨held, unbroken⟩ := flatMap_lineLiterals_lower one clear hc simple wd d
      exact ⟨handed.finish_spec.1.trans (kept'.config.trans kept.config), frame, _,
        ls, unbroken, held⟩

end Code

section Run

variable {s : Session}

/-- Whether a line of a source, given also without blanks around it, is blank, a comment or one that
a test admits. No literal of it is left open or holds a tab. -/
def isRead (admits : Text → Bool) (raw line : Text) : Bool :=
  decide (Lexical.IsClosed (splitComment raw).1) &&
    (lineLiterals raw).all (fun a => !a.contains '\t') &&
    line.head? != some '#' && (dropLead? line "/*".toList).isNone &&
    (line.isEmpty || startsWith line "//".toList || admits line)

def readsOn (s : Session) (raw line : Text) : Bool :=
  isRead s.readsStatements raw line

/-- Whether the lines of a source are read so one after another, and the run does not break off. -/
def readsAll (s : Session) : List Text → Bool
  | [] => !hasAbort s.env.diagnostics
  | raw :: rest =>
    let s := { s with env := s.env.nextLine }
    let line := trim (expandTabs s.env.config.tabWidth raw)
    s.readsOn raw line && readsAll (s.plainLine raw line) rest

theorem plainLine_of_isEmpty {raw line : Text} (state : s.directives = {})
    (empty : line.isEmpty) : s.plainLine raw line = if s.endsBlank then s else s.emit [] := by
  rw [isEmpty_iff.mp empty, plainLine, state]
  rfl

theorem plainLine_of_startsWith {raw line : Text} (state : s.directives = {})
    (uncommented : dropLead? line "/*".toList = none) (starts : startsWith line "//".toList) :
    s.plainLine raw line = s.emitIndented line := by
  have ne : line.isEmpty = false := by
    cases line with
    | nil => cases starts
    | cons c r => rfl
  rw [plainLine, state, uncommented, ne, starts]
  rfl

theorem writes_plainLine {raw line : Text} (hst : s.frame = ({}, false))
    (one : '\n' ∉ line) (reads : s.readsOn raw line) :
    s.Writes (s.plainLine raw line) (lineLiterals line) := by
  have dirs : s.directives = {} := congrArg Prod.fst hst
  simp only [readsOn, isRead, Bool.and_eq_true, Bool.or_eq_true, Option.isNone_iff_eq_none] at reads
  obtain ⟨⟨-, uncommented⟩, (empty | starts) | reads⟩ := reads
  · rw [plainLine_of_isEmpty dirs empty, isEmpty_iff.mp empty]
    split
    · exact ⟨rfl, rfl, [], by simp, by simp, rfl⟩
    · exact ⟨rfl, rfl, [[]], rfl, by simp, rfl⟩
  · have hb : ∀ c ∈ indent s.env.config.indentWidth s.env.depth, c = ' ' :=
      fun c mem => eq_of_mem_replicate mem
    rw [plainLine_of_startsWith dirs uncommented starts]
    refine ⟨rfl, rfl, [_], rfl, ?_, ?_⟩
    · intro t mem feed
      rw [mem_singleton.mp mem] at feed
      rcases mem_append.mp feed with gap | inner
      · exact absurd (hb _ gap) (by decide)
      · exact one inner
    · rw [flatMap_singleton]
      exact literals_splitComment_indent (fun c mem => by rw [hb c mem]; decide) line
  · exact writes_statements uncommented one reads

theorem writes_allLines {fs : FileSystem} {compile : Text → Session → Progress} {lines : List Text}
    (tabs : s.env.config.tabWidth ≠ 0) (hst : s.frame = ({}, false))
    (one : ∀ raw ∈ lines, '\n' ∉ raw) (reads : s.readsAll lines) :
    ∃ fin, allLines fs compile lines s = (fin, none) ∧ hasAbort fin.env.diagnostics = false ∧
      s.Writes fin (lines.flatMap lineLiterals) := by
  induction lines generalizing s with
  | nil =>
    exact ⟨s, rfl, Bool.not_eq_true' _ ▸ reads, rfl, rfl, [], by simp, by simp, rfl⟩
  | cons raw r ih =>
    obtain ⟨here, later⟩ := forall_mem_cons.mp one
    simp only [readsAll, Bool.and_eq_true, Environment.config_nextLine] at reads
    obtain ⟨first, others⟩ := reads
    have uncommented : s.inComment = false := congrArg Prod.snd hst
    have checks := first
    simp only [readsOn, isRead, Bool.and_eq_true, decide_eq_true_eq, all_eq_true, Bool.not_eq_true',
      bne_iff_ne, contains_eq_mem, decide_eq_false_iff_not] at checks
    obtain ⟨⟨⟨⟨hc, tabless⟩, hp⟩, -⟩, -⟩ := checks
    have step : s.line fs compile raw =
        (plainLine { s with env := s.env.nextLine } raw
          (trim (expandTabs s.env.config.tabWidth raw)), none) := by
      unfold line
      dsimp only
      rw [Environment.config_nextLine, uncommented, if_neg Bool.false_ne_true,
        Directive.read_of_head?_ne _ _ _ (by rwa [trim_trim])]
    have wrote := @writes_plainLine { s with env := s.env.nextLine } _ _ hst
      (newline_notMem_trim_expandTabs here) first
    rw [Program.lineLiterals_trim, lineLiterals,
      literals_splitComment_expandTabs tabs hc tabless] at wrote
    obtain ⟨fin, run, unbroken, more⟩ := ih
      (by rw [wrote.config, Environment.config_nextLine]; exact tabs)
      (wrote.frame.trans hst) later others
    have whole := wrote.trans more
    refine ⟨fin, by rw [allLines, step]; exact run, unbroken, ?_, whole.frame, whole.lines⟩
    exact whole.config.trans s.env.config_nextLine

end Run

theorem flatMap_lineLiterals_program {s : Session}
    (hp : s.env.config.reformat = false ∧ s.env.config.minify = false)
    (one : ∀ t ∈ s.lines, '\n' ∉ t) :
    (Text.lines s.program).flatMap lineLiterals = s.lines.flatMap lineLiterals := by
  unfold program
  dsimp only
  rw [hp.1, hp.2, if_neg Bool.false_ne_true, if_neg Bool.false_ne_true]
  split
  · have shape : pragmaPreamble ++ '\n' :: s.output = ofLines (pragmaPreamble :: s.lines) := by
      simp [ofLines, output]
    rw [shape, Program.flatMap_lineLiterals_ofLines (forall_mem_cons.mpr ⟨by decide, one⟩)]
    rfl
  · exact Program.flatMap_lineLiterals_ofLines one

end Session

/-- A source of statements compiles, and its program has the literals of the source, in order. -/
theorem literals_compileTextWith {config : Config} (files : FileSystem) {source : Text}
    (plain : config.reformat = false ∧ config.minify = false) (tabs : config.tabWidth ≠ 0)
    (reads : (Reading.begin config source).session.readsAll (lines source) = true) :
    ∃ compiled, compileTextWith config files source = .ok compiled ∧
      (lines compiled.text).flatMap lineLiterals = (lines source).flatMap lineLiterals := by
  have run (s : Session) (settings : s.env.config = config)
      (state : s.frame = ({}, false)) (unwritten : s.lines = [])
      (reads : { s with env := s.env.pushSource [] }.readsAll (lines source) = true) :
      ∃ compiled, Progress.finish (s.text files source) = .ok compiled ∧
        (lines compiled.text).flatMap lineLiterals = (lines source).flatMap lineLiterals := by
    obtain ⟨final, finishes, whole, wrote⟩ := @Session.writes_allLines
      { s with env := s.env.pushSource [] } files (Session.inclusion files) _
      (settings.symm ▸ tabs) state (fun raw listed => newline_notMem_of_mem_lines listed) reads
    obtain ⟨new, lines, unbroken, held⟩ := wrote.lines
    rw [show Session.lines _ = [] from unwritten] at lines
    have same : final.env.config = config := wrote.config.trans settings
    have finished : Progress.finish (s.text files source) =
        .ok { final with env := final.env.popSource }.finish := by
      rw [Session.text, Session.source, finishes, Progress.finish]
      exact if_neg (Bool.not_eq_true _ ▸ whole)
    refine ⟨_, finished, ?_⟩
    exact (@Session.flatMap_lineLiterals_program { final with env := final.env.popSource }
      (same.symm ▸ plain) (lines ▸ unbroken)).trans
        ((congrArg (flatMap lineLiterals) lines).trans held)
  exact run _ (Session.amends_start config).config
    (Prod.ext (Session.directives_start config) rfl) rfl reads

/-- Semicolons, slashes and escaped quotes in literals, a tab, a comment and a conditional. -/
theorem literals_compileTextWith_conditional :
    let source := ("begin\nx := \"a; // b\";\tf(\"c\"); // \"d\"\n\n" ++
      "y := (x == \"p\" ? \"q\\\"\" : \"r\");\nend;\n").toList
    (Reading.begin {} source).session.readsAll (lines source) = true ∧
      ∃ compiled, compileTextWith {} {} source = .ok compiled ∧
        (lines compiled.text).flatMap lineLiterals = (lines source).flatMap lineLiterals := by
  refine (fun reads => ⟨reads, literals_compileTextWith {} ⟨rfl, rfl⟩ (by decide) reads⟩) ?_
  decide +kernel

/-- A word of the stash in a literal is carried out. -/
theorem literals_compileTextWith_ne :
    (lines "begin\nf(\"__POP__\");\nend;\n".toList).flatMap lineLiterals =
        ["\"__POP__\"".toList] ∧
      ((compileTextWith {} {} "begin\nf(\"__POP__\");\nend;\n".toList).toOption.map fun compiled =>
        (lines compiled.text).flatMap lineLiterals) = some ["\"\"".toList] := by
  decide +kernel

end PrimePlus
