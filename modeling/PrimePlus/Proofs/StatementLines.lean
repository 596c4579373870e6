import PrimePlus.Proofs.TranslatedLiterals

/-!
Lines that are statements wherever they stand, and the sources that are made of them.
-/

namespace PrimePlus

open List Construct
open Lexical
open Text

namespace Construct

variable {t : Text}

theorem isSimple_succ (d : Nat) (t : Text) : isSimple (d + 1) t = isSimple 1 t := by
  simp [isSimple, lower, withCalls, conditional?, respell]

open Naming in
theorem Naming.lower?_eq_none (naming : Naming) (env : Environment)
    (missed : variablesPattern.find? t = none) (unnamed : (functionPattern.find? t).all
      fun found => !hasNaming (found.group 3) && !hasNaming (found.group 4)) :
    naming.lower? env t = none := by
  have headless : naming.header? env t = none := by
    unfold header?
    split
    · rfl
    · split
      · rfl
      · next found hit => rw [if_pos (by simpa [hit] using unnamed)]
  simp [lower?, variables?, missed, headless]

theorem Switches.apply_eq_none (switches : Switches) (d : Nat)
    (unopened : switchPattern.find? t = none) (undivided : casePattern.find? t = none) :
    (switches.apply d t).1 = none := by
  unfold apply
  split
  · rfl
  · rw [unopened]
    unfold proceed
    dsimp only
    repeat' split
    all_goals simp [branches?, Regex.isMatch, undivided]

theorem loops_eq_none (opened : List OpenLoop) (d : Nat)
    (unopened : steppedPattern.find? t = none) (unclosed : nextPattern.find? t = none) :
    (loops opened d t).1 = none := by
  unfold loops
  split
  · rfl
  · dsimp only
    rw [unopened, unclosed]
    dsimp only
    split <;> rfl

end Construct

theorem Alias.Table.resolve_of_absent (tbl : Table) (loc : Location) {n : Nat} {t : Text}
    (sealed : Sealed n t) (absent : ∀ e ∈ tbl.entries, e.finder.isMatch t = false) :
    tbl.resolve loc t = (t, []) := by
  have pass : tbl.resolveOnce loc t = (t, []) := by
    refine foldlRecOn (motive := (· = (t, []))) tbl.entries _ rfl fun done same e mem => ?_
    simp [same, Entry.resolve, absent e mem]
  have settled : settle (tbl.resolveOnce loc) tbl.maxPasses t = ⟨t, true, []⟩ := by
    obtain ⟨limit, eq⟩ := Nat.exists_eq_add_one.mpr tbl.somePass
    simp [eq, settle, pass]
  unfold resolve
  split
  · rfl
  · simp [sealed.protect_eq, settled, restore_of_nothing]

namespace Session

/-- Whether none of some patterns is found in a text. -/
def lacks (t : Text) (patterns : List Regex) : Bool :=
  patterns.all fun pattern => (pattern.find? t).isNone

open Naming in
/-- Whether code is one of statements wherever it stands, if no identities are known but the given
ones: nothing is found in it but conditionals, keywords and operators. -/
def isStatement (entries : List Alias.Entry) (code : Text) : Bool :=
  let shown := collapseBlanks (protect [] code).1
  decide (IsClear code ∧ Lexical.IsClosed code) && !code.isEmpty &&
    lacks (trim code) [removalPattern, definitionPattern, synonymPattern, dictionaryPattern,
      namespacePattern] &&
    lacks (trim shown) [Records.startPattern, enumerationPattern] &&
    lacks shown [Expression.inlinePattern, Records.instancesPattern, variablesPattern,
      switchPattern, casePattern, steppedPattern, nextPattern] &&
    (functionPattern.find? shown).all
      (fun found => !hasNaming (found.group 3) && !hasNaming (found.group 4)) &&
    entries.all (fun entry => !entry.finder.isMatch shown) &&
    isSimple 0 shown && isSimple 1 shown

/-- Whether a line is one of statements wherever it stands, if no identities are known but the given
ones. -/
def isStatementLine (entries : List Alias.Entry) (line : Text) : Bool :=
  lacks line [RuleDeclaration.linePattern, stashPattern] &&
    isStatement entries (trim (splitComment line).1)

/-- A session in which nothing was declared but the given identities. -/
structure IsFresh (entries : List Alias.Entry) (session : Session) : Prop where
  named : session.env.aliases.entries ⊆ entries
  spaces : session.env.aliases.namespaces = []
  rules : session.env.rules.rules = []
  enumeration : session.memory.enumeration = none
  record : session.memory.records.opened = none
  unbroken : hasAbort session.env.diagnostics = false

namespace IsFresh

variable {entries : List Alias.Entry} {s : Session} {t code line : Text}

theorem followBlocks (fresh : s.IsFresh entries) (t : Text) :
    (s.followBlocks t).IsFresh entries := by
  have followed := foldlRecOn (motive := fun done : Session × Bool => done.1.IsFresh entries)
    (blockTokens t) follow (b := (s, false)) fresh fun done pre token _ => by
      unfold follow
      cases token.effect with
      | opens => exact { pre with }
      | divides => exact pre
      | closes =>
        dsimp only [Environment.leave]
        split
        · exact { pre with
            unbroken := by
              simpa [Environment.report, Environment.note, hasAbort] using pre.unbroken }
        · exact { pre with
            named := fun e mem => by
              simp [Alias.Table.purge, Alias.Table.keepNamespaces, pre.spaces] at mem
              exact pre.named mem.1
            spaces := by simp [Alias.Table.purge, Alias.Table.keepNamespaces, pre.spaces]
            rules := by simp [RuleSet.purge, pre.rules] }
  unfold Session.followBlocks
  dsimp only
  split
  · exact { followed with record := followed.record }
  · exact followed

theorem lookForAll (fresh : s.IsFresh entries) (t : Text) :
    (Session.lookForAll [.switch, .loop, .conditional, .keyword, .operator] s t).1.IsFresh
      entries := by
  refine lookForAll_keeps (p := fun done => done.1.IsFresh entries)
    (fun con mem s t pre => ?_) fresh
  simp only [mem_cons, not_mem_nil, or_false] at mem
  rcases mem with rfl | rfl | rfl | rfl | rfl <;> unfold look apply <;> dsimp only <;>
    repeat' split
  all_goals
    exact { pre with
      unbroken := by
        simpa [Environment.report, Environment.note, hasAbort] using pre.unbroken }

theorem finish {handed : Handed}
    (lowered : (Session.lookForAll lowerings handed.session handed.line).1.IsFresh entries) :
    handed.finish.IsFresh entries := by
  unfold Handed.finish finishLine
  generalize Session.lookForAll lowerings handed.session handed.line = done at lowered ⊢
  exact { lowered.followBlocks done.2 with }

theorem look_of_absent {con : Construct}
    (absent : con.apply s.memory s.env t = ⟨none, s.memory, s.env⟩) :
    s.look con t = (s, t, false) := by
  simp [look, absent]

theorem lookForFirst_of_absent {constructs : List Construct}
    (absent : ∀ con ∈ constructs, con.apply s.memory s.env t = ⟨none, s.memory, s.env⟩) :
    lookForFirst constructs s t = (s, t, false) := by
  induction constructs with
  | nil => rfl
  | cons con rest ih =>
    obtain ⟨first, others⟩ := forall_mem_cons.mp absent
    rw [lookForFirst, look_of_absent first]
    exact ih others

theorem handed (fresh : s.IsFresh entries) (statement : isStatement entries code)
    (comment : Option Text) :
    let shown := collapseBlanks (protect [] code).1
    (s.env.rewrite code).1 = shown ∧
      s.ready? comment code = some ⟨s, (protect [] code).2, comment, shown⟩ ∧
      (Session.lookForAll [.naming, .switch, .loop] s shown).2 = shown ∧
      (Session.lookForAll lowerings s shown).1.IsFresh entries ∧ isSimple s.env.depth shown := by
  simp only [isStatement, lacks, all_cons, all_nil, Bool.and_true, Bool.and_eq_true,
    decide_eq_true_eq, Option.isNone_iff_eq_none, all_eq_true, Bool.not_eq_true'] at statement
  obtain ⟨⟨⟨⟨⟨⟨⟨⟨⟨clear, closed⟩, -⟩, -⟩, record, enumeration⟩, inline, instances, vars, switch,
    case, stepped, next⟩, unnamed⟩, absent⟩, outside⟩, inside⟩ := statement
  have sealed := (seamed_sealed _).collapseBlanks (sealed_protect clear.unmarked closed)
  have resolved : s.env.resolveAliases (collapseBlanks (protect [] code).1) =
      (collapseBlanks (protect [] code).1, s.env) := by
    simp [Environment.resolveAliases, Environment.note,
      s.env.aliases.resolve_of_absent _ sealed fun e mem => absent e (fresh.named mem)]
  have folded : s.env.foldInline (collapseBlanks (protect [] code).1) =
      (collapseBlanks (protect [] code).1, s.env) := by
    simp [Environment.foldInline, Expression.foldInline, Expression.replaceCollecting,
      Regex.isMatch, inline, Expression.reported, Environment.note]
  dsimp only
  rw [Environment.rewrite, ready?]
  dsimp only
  rw [resolved, folded, sealed.protect_eq]
  generalize collapseBlanks (protect [] code).1 = shown at *
  have declared : lookForFirst resolvedDeclarations s shown = (s, shown, false) := by
    refine lookForFirst_of_absent fun con mem => ?_
    simp only [resolvedDeclarations, mem_cons, not_mem_nil, or_false] at mem
    rcases mem with rfl | rfl
    · simp [apply, Records.lower?, Records.instantiate?, fresh.record, record, instances]
    · simp [apply, enumeration?, fresh.enumeration, enumeration]
  have unnamed : s.look .naming shown = (s, shown, false) :=
    look_of_absent (by simp [apply, s.memory.naming.lower?_eq_none s.env vars unnamed])
  have named (constructs : List Construct) :
      Session.lookForAll (.naming :: constructs) s shown =
        Session.lookForAll constructs s shown := by
    simp [Session.lookForAll, unnamed]
  refine ⟨?_, ?_, ?_, ?_, ?_⟩
  · rfl
  · rw [declared]
    rfl
  · rw [named]
    simp [Session.lookForAll, look_text, apply, Switches.apply_eq_none _ _ switch case,
      loops_eq_none _ _ stepped next]
  · rw [lowerings, named]
    exact fresh.lookForAll shown
  · cases s.env.depth with
    | zero => exact outside
    | succ d => exact (isSimple_succ d shown).trans inside

theorem statement_line (fresh : s.IsFresh entries) (state : s.directives = {}) (raw : Text)
    (uncommented : dropLead? line "/*".toList = none) (ne : line.isEmpty = false)
    (code : startsWith line "//".toList = false) (statement : isStatementLine entries line) :
    s.readsStatements line ∧ (s.plainLine raw line).IsFresh entries := by
  obtain ⟨unmatched, statement⟩ := Bool.and_eq_true_iff.mp statement
  simp only [lacks, all_cons, all_nil, Bool.and_true, Bool.and_eq_true,
    Option.isNone_iff_eq_none] at unmatched
  obtain ⟨unruled, unstashed⟩ := unmatched
  have ruled : s.env.resolveRules line = (line, s.env) := by
    simp [Environment.resolveRules, RuleSet.resolve, fresh.rules, Environment.note]
  have stashed : s.look .stash line = (s, line, false) :=
    look_of_absent (by simp [apply, stash?, Regex.isMatch, unstashed])
  have remark : s.remark line = (splitComment line).2 := by
    simp [Session.remark, ruled, stashed]
  have running : s.directives.language?.isSome = false ∧ s.directives.isSkipping = false := by
    rw [state]
    exact ⟨rfl, rfl⟩
  have checks := statement
  simp only [isStatement, lacks, all_cons, all_nil, Bool.and_true, Bool.and_eq_true,
    decide_eq_true_eq, Option.isNone_iff_eq_none, Bool.not_eq_true'] at checks
  obtain ⟨⟨⟨⟨⟨⟨⟨⟨whole, visible⟩, removal, definition, synonym, dictionary, space⟩, -⟩, -⟩, -⟩, -⟩,
    -⟩, -⟩ := checks
  have declared : lookForFirst plainDeclarations s (trim (splitComment line).1) =
      (s, trim (splitComment line).1, false) := by
    refine lookForFirst_of_absent fun con mem => ?_
    simp only [plainDeclarations, mem_cons, not_mem_nil, or_false] at mem
    rcases mem with rfl | rfl | rfl | rfl
    · simp [apply, definition?, removal, definition]
    · simp [apply, synonym?, synonym]
    · simp [apply, dictionary?, dictionary]
    · simp [apply, namespaceUse?, space]
  have plain : s.plainCode? line = some (s, trim (splitComment line).1) := by
    unfold plainCode?
    rw [running.1, running.2, uncommented, ne, code]
    simp [codeIn?, Environment.readRule?, RuleSet.readLine?, RuleDeclaration.ofLine?, unruled,
      ruled, stashed, visible, declared]
  obtain ⟨rewritten, ready, kept, lowered, simple⟩ := fresh.handed statement (splitComment line).2
  refine ⟨?_, ?_⟩
  · simp [readsStatements, whole, remark, plain, rewritten, ready, kept, simple]
  · have passes := s.passes_plainCode? line raw
    rw [plain] at passes
    generalize s.plainLine raw line = after at passes ⊢
    cases passes with
    | given =>
      have further := s.passes_ready? (s.remark line) (trim (splitComment line).1)
      rw [remark, ready] at further
      rw [remark]
      generalize s.resolveLine _ _ = after at further ⊢
      cases further with
      | given => exact finish lowered

theorem plainLine (fresh : s.IsFresh entries) (state : s.directives = {}) {raw : Text}
    (admitted : isRead (isStatementLine entries) raw line) :
    s.readsOn raw line ∧ (s.plainLine raw line).IsFresh entries := by
  simp only [readsOn, isRead, Bool.and_eq_true, Bool.or_eq_true, Option.isNone_iff_eq_none]
    at admitted ⊢
  obtain ⟨⟨sound, uncommented⟩, either⟩ := admitted
  by_cases short : line.isEmpty ∨ startsWith line "//".toList
  · refine ⟨⟨⟨sound, uncommented⟩, .inl short⟩, ?_⟩
    rcases short with empty | starts
    · rw [plainLine_of_isEmpty state empty]
      split
      · exact fresh
      · exact { fresh with }
    · rw [plainLine_of_startsWith state uncommented starts]
      exact { fresh with }
  · simp only [not_or, Bool.not_eq_true] at short
    obtain ⟨reads, next⟩ := fresh.statement_line state raw uncommented short.1 short.2
      (either.resolve_left (by rw [short.1, short.2]; simp))
    exact ⟨⟨⟨sound, uncommented⟩, .inr reads⟩, next⟩

theorem readsAll {lines : List Text} (fresh : s.IsFresh entries) (state : s.frame = ({}, false))
    (one : ∀ raw ∈ lines, '\n' ∉ raw) (admitted : ∀ raw ∈ lines,
      isRead (isStatementLine entries) raw (trim (expandTabs s.env.config.tabWidth raw))) :
    s.readsAll lines := by
  induction lines generalizing s with
  | nil => rw [Session.readsAll, fresh.unbroken]; rfl
  | cons raw rest ih =>
    obtain ⟨here, later⟩ := forall_mem_cons.mp one
    obtain ⟨first, others⟩ := forall_mem_cons.mp admitted
    have counted : IsFresh entries { s with env := s.env.nextLine } := by
      rw [Environment.nextLine_eq]
      exact { fresh with }
    rw [← Environment.config_nextLine] at first
    obtain ⟨reads, next⟩ := counted.plainLine (congrArg Prod.fst state) first
    have wrote := @writes_plainLine { s with env := s.env.nextLine } _ _ state
      (newline_notMem_trim_expandTabs here) reads
    refine Bool.and_eq_true_iff.mpr ⟨reads, ih next (wrote.frame.trans state) later ?_⟩
    rwa [wrote.config, Environment.config_nextLine]

end IsFresh

theorem isFresh_start : (start {}).IsFresh (start {}).env.aliases.entries where
  named := Subset.refl _
  spaces := by decide +kernel
  rules := isEmpty_iff.mp (by decide +kernel)
  enumeration := by decide +kernel
  record := by decide +kernel
  unbroken := by decide +kernel

/-- Whether every line of a source is blank, a comment or statements wherever it stands, if the
names are known that a compilation with the usual settings starts with. -/
def isStatementSource (source : Text) : Bool :=
  (Text.lines source).all fun raw => isRead (isStatementLine (start {}).env.aliases.entries) raw
    (trim (expandTabs (start {}).env.config.tabWidth raw))

theorem readsAll_begin {source : Text} (statements : isStatementSource source) :
    (Reading.begin {} source).session.readsAll (Text.lines source) :=
  IsFresh.readsAll { isFresh_start with } (Prod.ext (directives_start {}) rfl)
    (fun _ listed => newline_notMem_of_mem_lines listed) (all_eq_true.mp statements)

example : isStatementSource "begin\nx := \"a; // b\";\tf(\"c\"); // \"d\"\nend;\n".toList := by
  decide +kernel

end Session

end PrimePlus
