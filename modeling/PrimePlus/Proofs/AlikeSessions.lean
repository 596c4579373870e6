import PrimePlus.Proofs.ReadingSteps
import PrimePlus.Proofs.UnplacedTables

/-!
Sessions that are the same but for places: they differ in the sources they read only. Lines do the
same to both, and inclusion is inlining.
-/

namespace PrimePlus

/-- What is known of two environments that are compared: the settings of both, and the sources that
each of them is reading. -/
structure View where
  config : Config
  reading : List Text
  reading' : List Text

namespace View

def push (view : View) (path path' : Text) : View :=
  { view with reading := path :: view.reading, reading' := path' :: view.reading' }

def pop (view : View) : View :=
  { view with reading := view.reading.tail, reading' := view.reading'.tail }

end View

namespace Environment

/-- Whether two environments are the same but for places and for the wording of diagnostics. -/
structure Alike (view : View) (env env' : Environment) : Prop where
  config : env.config = view.config
  config' : env'.config = view.config
  aliases : env.aliases.unplaced = env'.aliases.unplaced
  rules : env.rules.unplaced = env'.rules.unplaced
  severities : severities env.diagnostics = severities env'.diagnostics
  depth : env.depth = env'.depth
  sources : env.sources.map Location.path = view.reading
  sources' : env'.sources.map Location.path = view.reading'

theorem paths_nextLine (env : Environment) :
    env.nextLine.sources.map Location.path = env.sources.map Location.path := by
  unfold nextLine
  split
  · next none => rfl
  · next source outer some => simp [some]

theorem isReading_eq (env : Environment) (fs : FileSystem) (path : Text) :
    env.isReading fs path =
      (env.sources.map Location.path).any fun source => fs.isSame source path := by
  rw [List.any_map]
  rfl

def view (env : Environment) : View :=
  ⟨env.config, env.sources.map Location.path, env.sources.map Location.path⟩

theorem alike_refl (env : Environment) : Alike env.view env env where
  config := rfl
  config' := rfl
  aliases := rfl
  rules := rfl
  severities := rfl
  depth := rfl
  sources := rfl
  sources' := rfl

namespace Alike

variable {view : View} {env env' : Environment} (alike : Alike view env env')

include alike

theorem note {told told' : List Diagnostic}
    (eq : PrimePlus.severities told = PrimePlus.severities told') :
    Alike view (env.note told) (env'.note told') :=
  { alike with
    severities := by
      simp only [Environment.note, severities_append, alike.severities, eq] }

theorem report (severity : Severity) (message message' : Text) :
    Alike view (env.report severity message) (env'.report severity message') :=
  alike.note rfl

theorem declare (ident : Alias.Identity) : Alike view (env.declare ident) (env'.declare ident) := by
  obtain ⟨tbl, -, told⟩ := env.aliases.unplaced_offer env.site ident
  obtain ⟨table', -, told'⟩ := env'.aliases.unplaced_offer env'.site ident
  have hd : env.site.depth = env'.site.depth := alike.depth
  rw [alike.aliases, hd] at tbl told
  have offered : Alike view { env with aliases := (env.aliases.offer env.site ident).1 }
      { env' with aliases := (env'.aliases.offer env'.site ident).1 } :=
    { alike with aliases := tbl.trans table'.symm }
  exact offered.note (told.trans told'.symm)

theorem enter : Alike view env.enter env'.enter :=
  { alike with depth := congrArg (· + 1) alike.depth }

theorem leave : Alike view env.leave.1 env'.leave.1 ∧ env.leave.2 = env'.leave.2 := by
  have eq := alike.depth
  unfold Environment.leave
  rw [← eq]
  cases env.depth with
  | zero => exact ⟨alike.report _ _ _, rfl⟩
  | succ d =>
    refine ⟨{ alike with aliases := ?_, rules := ?_, depth := rfl }, rfl⟩
    · simp only [Alias.Table.unplaced_purge, alike.aliases]
    · simp only [RuleSet.unplaced_purge, alike.rules]

theorem nextLine : Alike view env.nextLine env'.nextLine := by
  rw [env.nextLine_eq, env'.nextLine_eq]
  exact { alike with
    sources := env.paths_nextLine.trans alike.sources
    sources' := env'.paths_nextLine.trans alike.sources' }

theorem nextLeft : Alike view env.nextLine env' := by
  rw [env.nextLine_eq]
  exact { alike with sources := env.paths_nextLine.trans alike.sources }

theorem pushLeft (p : Text) :
    Alike { view with reading := p :: view.reading } (env.pushSource p) env' :=
  { alike with sources := congrArg (p :: ·) alike.sources }

theorem popLeft : Alike { view with reading := view.reading.tail } env.popSource env' :=
  { alike with sources := List.map_tail.trans (congrArg List.tail alike.sources) }

theorem pushSource (p path' : Text) :
    Alike (view.push p path') (env.pushSource p) (env'.pushSource path') :=
  { alike with
    sources := congrArg (p :: ·) alike.sources
    sources' := congrArg (path' :: ·) alike.sources' }

theorem popSource : Alike view.pop env.popSource env'.popSource :=
  { alike with
    sources := List.map_tail.trans (congrArg List.tail alike.sources)
    sources' := List.map_tail.trans (congrArg List.tail alike.sources') }

theorem readRule? (l : Text) : Option.Rel (Alike view) (env.readRule? l) (env'.readRule? l) := by
  have left := env.rules.unplaced_readLine? env.site l
  have right := env'.rules.unplaced_readLine? env'.site l
  have hd : env.site.depth = env'.site.depth := alike.depth
  rw [alike.rules, hd, ← right] at left
  unfold Environment.readRule?
  cases read : env.rules.readLine? env.site l with
  | none =>
    rw [read] at left
    rw [Option.map_eq_none_iff.mp left.symm]
    exact .none
  | some next =>
    rw [read] at left
    obtain ⟨next', read', eq⟩ := Option.map_eq_some_iff.mp left.symm
    obtain ⟨rules, told⟩ := Prod.mk.inj eq
    rw [read']
    have declared : Alike view { env with rules := next.1 }
        { env' with rules := next'.1 } := { alike with rules := rules.symm }
    exact .some (declared.note told.symm)

theorem resolveAliases (t : Text) :
    (env.resolveAliases t).1 = (env'.resolveAliases t).1 ∧
      Alike view (env.resolveAliases t).2 (env'.resolveAliases t).2 := by
  obtain ⟨text, told⟩ := env.aliases.resolve_alike env.location {} t
  obtain ⟨text', told'⟩ := env'.aliases.resolve_alike env'.location {} t
  rw [alike.aliases] at text told
  exact ⟨text.trans text'.symm, alike.note (told.same.trans told'.same.symm)⟩

theorem resolveRules (t : Text) :
    (env.resolveRules t).1 = (env'.resolveRules t).1 ∧
      Alike view (env.resolveRules t).2 (env'.resolveRules t).2 := by
  obtain ⟨text, told⟩ := env.rules.resolve_alike env.location {} env'.depth t
  obtain ⟨text', told'⟩ := env'.rules.resolve_alike env'.location {} env'.depth t
  rw [alike.rules] at text told
  unfold Environment.resolveRules
  rw [alike.depth]
  exact ⟨text.trans text'.symm, alike.note (told.same.trans told'.same.symm)⟩

theorem foldInline (t : Text) :
    (env.foldInline t).1 = (env'.foldInline t).1 ∧
      Alike view (env.foldInline t).2 (env'.foldInline t).2 :=
  ⟨rfl, alike.note (Expression.reported_alike env.location env'.location _).2.same⟩

theorem isReading (eq : view.reading = view.reading') (fs : FileSystem) (path : Text) :
    env.isReading fs path = env'.isReading fs path := by
  rw [isReading_eq, isReading_eq, alike.sources, alike.sources', eq]

end Alike

theorem isCongruence_alike (view : View) : IsCongruence (Alike view) where
  depth := Alike.depth
  hasName alike identifier := by
    rw [← Alias.Table.hasName_unplaced, alike.aliases, Alias.Table.hasName_unplaced]
  hasReal alike real := by
    rw [← Alias.Table.hasReal_unplaced, alike.aliases, Alias.Table.hasReal_unplaced]
  nextFree alike n last := by
    rw [← Alias.Table.nextFree_unplaced, alike.aliases, Alias.Table.nextFree_unplaced]
  real alike identifier := by
    have eq := congrArg (fun tbl => (tbl.get? identifier).map Alias.Identity.real) alike.aliases
    simp only [Alias.Table.get?_unplaced, Option.map_map] at eq
    exact eq
  report alike severity message := alike.report severity message message
  declare := Alike.declare
  remove alike identifier :=
    { alike with aliases := by simp only [Alias.Table.unplaced_remove, alike.aliases] }
  useNamespace alike name :=
    { alike with
      aliases := by
        simp only [useNamespace, Alias.Table.unplaced_addNamespace, alike.aliases, alike.depth] }
  removeNamespace alike name :=
    { alike with aliases := by simp only [Alias.Table.unplaced_removeNamespace, alike.aliases] }
  tell alike verbose :=
    { alike with
      aliases := congrArg (fun tbl => { tbl with verbose := verbose }) alike.aliases }
  resolveAliases := Alike.resolveAliases
  foldWhole alike t :=
    ⟨rfl, alike.note (Expression.reported_alike _ _ _).2.same⟩

end Environment

open Environment

variable {view : View} {env env' : Environment}

theorem Construct.apply_alike (con : Construct) (memory : Memory)
    (alike : Alike view env env') (l : Text) :
    Outcome.Related (Alike view) (con.apply memory env l) (con.apply memory env' l) :=
  apply_related (isCongruence_alike view) alike con memory l

namespace Directive

theorem includedPath?_alike (alike : Alike view env env')
    (same : view.reading.head? = view.reading'.head?) (fs : FileSystem) (rest : Text) :
    includedPath? env fs rest = includedPath? env' fs rest := by
  have directory : env.directory? = env'.directory? := by
    have left : env.source? = view.reading.head? := by
      rw [← alike.sources, List.head?_map]
      rfl
    have right : env'.source? = view.reading'.head? := by
      rw [← alike.sources', List.head?_map]
      rfl
    rw [directory?, directory?, left, right, same]
  rw [includedPath?, includedPath?, alike.config, alike.config', directory]

/-- A line is read alike as a directive, unless it includes a file and stands in different
sources. -/
theorem read_alike (fs : FileSystem) (l : Text) (st : DirectiveState) (alike : Alike view env env')
    (same : IsInclusion (Text.trim l) → view.reading.head? = view.reading'.head?) :
    RelatedAfter (Alike view) (read fs l st env) (read fs l st env') :=
  read_related (isCongruence_alike view) alike fs l st fun inclusion rest =>
    includedPath?_alike alike (same inclusion) fs rest

end Directive

namespace Session

/-- Whether two sessions are the same but for places and for the wording of diagnostics, one of them
reading the sources `reading` and the other one the sources `reading'`. -/
structure Alike (view : View) (s s' : Session) : Prop where
  env : Environment.Alike view s.env s'.env
  directives : s.directives = s'.directives
  memory : s.memory = s'.memory
  tally : s.tally = s'.tally
  lines : s.lines = s'.lines
  inComment : s.inComment = s'.inComment

theorem alike_refl (s : Session) : Alike s.env.view s s :=
  ⟨s.env.alike_refl, rfl, rfl, rfl, rfl, rfl⟩

def AlikeAfter {α : Type} (view : View) (done done' : Session × α) : Prop :=
  Alike view done.1 done'.1 ∧ done.2 = done'.2

theorem AlikeAfter.exists_eq {α : Type} {done done' : Session × α}
    (alike : AlikeAfter view done done') :
    ∃ s s' result, done = (s, result) ∧ done' = (s', result) ∧
      Alike view s s' :=
  ⟨done.1, done'.1, done.2, rfl, Prod.ext rfl alike.2.symm, alike.1⟩

namespace Alike

open Directive

open Lexical

variable {s s' : Session}

/-- What is done where a file is included does the same to sessions that are alike. -/
def Inclusions (view : View) (compile compile' : Text → Session → Progress) : Prop :=
  ∀ (path : Text) {s s' : Session}, Alike view s s' →
    AlikeAfter view (compile path s) (compile' path s')

section

variable (alike : Alike view s s')

include alike

theorem exists_env : ∃ env, s' = { s with env := env } := by
  obtain ⟨env', directives', memory', tally', lines', inComment'⟩ := s'
  obtain ⟨-, rfl, rfl, rfl, rfl, rfl⟩ := alike
  exact ⟨env', rfl⟩

theorem withEnv {changed : View} {env env' : Environment}
    (hr : Environment.Alike changed env env') :
    Alike changed { s with env := env } { s' with env := env' } :=
  { alike with env := hr }

theorem emit (line : Text) : Alike view (s.emit line) (s'.emit line) :=
  { alike with lines := congrArg (· ++ [line]) alike.lines }

theorem emitIndented (line : Text) :
    Alike view (s.emitIndented line) (s'.emitIndented line) := by
  unfold Session.emitIndented
  rw [alike.env.config, alike.env.config', alike.env.depth]
  exact alike.emit _

theorem look (con : Construct) (line : Text) :
    AlikeAfter view (s.look con line) (s'.look con line) := by
  obtain ⟨eq, memory, env⟩ := Construct.apply_alike con s.memory alike.env line
  unfold Session.look
  rw [← alike.memory]
  dsimp only
  rw [← eq]
  split
  · exact ⟨{ alike with memory := memory, env := env }, rfl⟩
  · next wr _ =>
    have recorded := congrArg (fun tally => tally.record con wr) alike.tally
    exact ⟨{ alike with memory := memory, env := env, tally := recorded }, rfl⟩

theorem lookForFirst (constructs : List Construct) (line : Text) :
    AlikeAfter view (lookForFirst constructs s line)
      (lookForFirst constructs s' line) := by
  induction constructs generalizing s s' line with
  | nil => exact ⟨alike, rfl⟩
  | cons con r ih =>
    obtain ⟨next, next', ⟨line', hit⟩, left, right, after⟩ := (alike.look con line).exists_eq
    unfold lookForFirst
    rw [left, right]
    cases hit with
    | true => exact ⟨after, rfl⟩
    | false => exact ih after line'

theorem lookForAll (constructs : List Construct) (line : Text) :
    AlikeAfter view (lookForAll constructs s line) (lookForAll constructs s' line) := by
  refine List.foldl_rel (r := AlikeAfter view) ⟨alike, rfl⟩ ?_
  intro con _ done done' pre
  obtain ⟨pre, text⟩ := pre
  obtain ⟨after, eq⟩ := pre.look con done.2
  rw [← text]
  exact ⟨after, congrArg Prod.fst eq⟩

theorem follow (x : Bool) (token : BlockToken) :
    AlikeAfter view (Session.follow (s, x) token) (Session.follow (s', x) token) := by
  unfold Session.follow
  cases token.effect with
  | opens => exact ⟨alike.withEnv alike.env.enter, rfl⟩
  | closes =>
    obtain ⟨left, eq⟩ := alike.env.leave
    refine ⟨alike.withEnv left, ?_⟩
    dsimp only
    rw [eq, left.depth]
  | divides => exact ⟨alike, rfl⟩

theorem followBlocks (line : Text) :
    Alike view (s.followBlocks line) (s'.followBlocks line) := by
  have followed (tokens : List BlockToken) :
      AlikeAfter view (tokens.foldl Session.follow (s, false))
        (tokens.foldl Session.follow (s', false)) := by
    refine List.foldl_rel (r := AlikeAfter view) ⟨alike, rfl⟩ ?_
    rintro token _ ⟨s, hc⟩ ⟨s', closed'⟩ ⟨pre, eq⟩
    cases eq
    exact pre.follow hc token
  obtain ⟨after, eq⟩ := followed (blockTokens line)
  unfold Session.followBlocks
  dsimp only
  rw [eq, after.env.depth]
  split
  · exact { after with memory := congrArg Construct.Memory.reset after.memory }
  · exact after

theorem finishLine (st : Store) (comment : Option Text) (line : Text) :
    Alike view (s.finishLine st comment line) (s'.finishLine st comment line) := by
  obtain ⟨next, next', line', left, right, lowered⟩ := (alike.lookForAll lowerings line).exists_eq
  unfold Session.finishLine
  rw [left, right]
  have followed := lowered.followBlocks line'
  refine { followed with lines := ?_ }
  dsimp only
  rw [followed.lines, lowered.env.config, lowered.env.config', lowered.env.depth]

theorem resolveLine (comment : Option Text) (line : Text) :
    Alike view (s.resolveLine comment line) (s'.resolveLine comment line) := by
  unfold Session.resolveLine
  generalize protect [] line = kept
  obtain ⟨hidden, st⟩ := kept
  dsimp only
  obtain ⟨eq, replaced⟩ := alike.env.resolveAliases (collapseBlanks hidden)
  generalize s.env.resolveAliases (collapseBlanks hidden) = done at eq replaced ⊢
  generalize s'.env.resolveAliases (collapseBlanks hidden) = done' at eq replaced ⊢
  obtain ⟨line, env⟩ := done
  obtain ⟨line', env'⟩ := done'
  cases eq
  have folded : (env.foldInline line).1 = (env'.foldInline line).1 := rfl
  rw [← folded]
  generalize protect st (env.foldInline line).1 = again
  obtain ⟨next, next', ⟨line', hit⟩, left, right, declared⟩ :=
    ((alike.withEnv (replaced.foldInline line).2).lookForFirst resolvedDeclarations
      again.1).exists_eq
  rw [left, right]
  split
  · exact declared
  · exact declared.finishLine _ _ _

theorem code (line : Text) : Alike view (s.code line) (s'.code line) := by
  unfold Session.code
  obtain ⟨eq, applied⟩ := alike.env.resolveRules line
  generalize s.env.resolveRules line = done at eq applied ⊢
  generalize s'.env.resolveRules line = done' at eq applied ⊢
  obtain ⟨line, env⟩ := done
  obtain ⟨line', env'⟩ := done'
  cases eq
  dsimp only
  obtain ⟨next, next', ⟨line', hit⟩, left, right, stashed⟩ :=
    ((alike.withEnv applied).look .stash line).exists_eq
  rw [left, right]
  split
  · split
    · exact stashed.emitIndented _
    · exact stashed
  · obtain ⟨last, last', ⟨code, hit⟩, left, right, declared⟩ :=
      (stashed.lookForFirst plainDeclarations (Text.trim (splitComment line').1)).exists_eq
    rw [left, right]
    split
    · exact declared
    · exact declared.resolveLine _ _

theorem plainLine (raw line : Text) :
    Alike view (s.plainLine raw line) (s'.plainLine raw line) := by
  obtain ⟨env', rfl⟩ := alike.exists_env
  unfold plainLine
  split
  · split
    · exact alike
    · exact alike.emit _
  · split
    · exact alike
    · split
      · exact { alike with inComment := rfl }
      · split
        · have hb : endsBlank { s with env := env' } = s.endsBlank := rfl
          rw [hb]
          split
          · exact alike
          · exact alike.emit _
        · split
          · exact alike.emitIndented _
          · have declared := alike.env.readRule? line
            generalize s.env.readRule? line = result at declared ⊢
            generalize env'.readRule? line = result' at declared ⊢
            cases declared with
            | none => exact alike.code line
            | some after => exact alike.withEnv after

theorem line (fs : FileSystem) (compile compile' : Text → Session → Progress) (raw : Text)
    (included : IsInclusion (Text.trim (expandTabs view.config.tabWidth raw)) →
      view.reading.head? = view.reading'.head? ∧ Inclusions view compile compile') :
    AlikeAfter view (s.line fs compile raw) (s'.line fs compile' raw) := by
  obtain ⟨env', rfl⟩ := alike.exists_env
  have counted := alike.env.nextLine
  have cfg : s.env.nextLine.config = view.config := counted.config
  have config' : env'.nextLine.config = view.config := counted.config'
  unfold line
  dsimp only
  rw [cfg, config']
  split
  · exact ⟨{ alike with env := counted, inComment := rfl }, rfl⟩
  · rw [← Text.trim_trim] at included
    generalize Text.trim (expandTabs view.config.tabWidth raw) = trimmed at included ⊢
    obtain ⟨eq, st, after⟩ := read_alike fs trimmed s.directives counted
      fun inclusion => (included inclusion).1
    have asked (p : Text)
        (inclusion : (read fs trimmed s.directives s.env.nextLine).1 = .inclusion p) :=
      (included (of_read_inclusion inclusion).1).2
    generalize read fs trimmed s.directives s.env.nextLine = done at eq st after asked ⊢
    generalize read fs trimmed s.directives env'.nextLine = done' at eq st after ⊢
    obtain ⟨directive, dirs, env⟩ := done
    obtain ⟨directive', directives', env'⟩ := done'
    cases eq
    cases st
    have read : Alike view { s with directives := dirs, env := env }
        { s with directives := dirs, env := env' } :=
      { alike with env := after, directives := rfl }
    cases directive with
    | none =>
      dsimp only
      exact ⟨read.plainLine raw trimmed, rfl⟩
    | consumed => exact ⟨read, rfl⟩
    | inclusion p =>
      exact asked p rfl p read
    | pass text => exact ⟨read.emit text, rfl⟩
    | embeddedStart language | embeddedEnd language =>
      dsimp only
      split
      · exact ⟨read, rfl⟩
      · exact ⟨read.emit _, rfl⟩

theorem allLines (fs : FileSystem) (compile compile' : Text → Session → Progress) (ls : List Text)
    (included : (∃ raw ∈ ls, IsInclusion
        (Text.trim (expandTabs view.config.tabWidth raw))) →
      view.reading.head? = view.reading'.head? ∧ Inclusions view compile compile') :
    AlikeAfter view (allLines fs compile ls s) (allLines fs compile' ls s') := by
  induction ls generalizing s s' with
  | nil => exact ⟨alike, rfl⟩
  | cons raw r ih =>
    obtain ⟨next, next', error, left, right, after⟩ := (alike.line fs compile compile' raw
      fun inclusion => included ⟨raw, List.mem_cons_self, inclusion⟩).exists_eq
    unfold allLines
    rw [left, right]
    cases error with
    | some error => exact ⟨after, rfl⟩
    | none =>
      apply ih after
      rintro ⟨o, mem, inclusion⟩
      exact included ⟨o, List.mem_cons_of_mem raw mem, inclusion⟩

theorem source (fs : FileSystem) {compile compile' : Text → Session → Progress}
    (p text : Text) (included : Inclusions (view.push p p) compile compile') :
    AlikeAfter view (s.source fs compile p text) (s'.source fs compile' p text) := by
  obtain ⟨after, eq⟩ := (alike.withEnv (alike.env.pushSource p p)).allLines fs
    _ _ (Text.lines text) fun _ => ⟨rfl, included⟩
  exact ⟨after.withEnv after.env.popSource, eq⟩

theorem stop (error : Error) : AlikeAfter view (s.stop error) (s'.stop error) :=
  ⟨alike.withEnv (alike.env.report _ _ _), rfl⟩

end

theorem includeWithin (fs : FileSystem) (fuel : Nat) (eq : view.reading = view.reading') :
    Inclusions view (Session.includeWithin fs fuel) (Session.includeWithin fs fuel) := by
  induction fuel generalizing view with
  | zero =>
    intro p s s' alike
    unfold Session.includeWithin fileFrom
    rw [alike.env.isReading eq]
    split
    · exact alike.stop _
    · split <;> exact alike.stop _
  | succ fuel ih =>
    intro p s s' alike
    unfold Session.includeWithin fileFrom
    rw [alike.env.isReading eq]
    split
    · exact alike.stop _
    · split
      · exact alike.stop _
      · exact alike.source fs p _ (ih (congrArg (p :: ·) eq))

theorem program (alike : Alike view s s') : s.program = s'.program := by
  have output : s.output = s'.output := by
    unfold output
    rw [alike.lines]
  unfold Session.program
  rw [alike.env.config, alike.env.config', output]

theorem openBlocks (alike : Alike view s s') :
    Environment.Alike view s.openBlocks s'.openBlocks := by
  have counted : Environment.Alike view
      (if s.env.depth = 0 then s.env
        else s.env.report .warning
          (Text.ofNat s.env.depth ++ " block(s) still open at end of input".toList))
      (if s'.env.depth = 0 then s'.env
        else s'.env.report .warning
          (Text.ofNat s'.env.depth ++ " block(s) still open at end of input".toList)) := by
    rw [alike.env.depth]
    split
    · exact alike.env
    · exact alike.env.report _ _ _
  unfold Session.openBlocks
  rw [alike.directives]
  split
  · exact counted.report _ _ _
  · exact counted

end Alike

end Session

/-- What a compilation comes to but for the places and the wording of what it reports: the program,
the severities of the diagnostics, and how often each construct was found. -/
def Compiled.outline (compiled : Compiled) : Text × List Severity × Construct.Tally :=
  (compiled.text, severities compiled.diagnostics, compiled.tally)

theorem outline_finish {progress progress' : Progress}
    (alike : Session.Alike view progress.1 progress'.1) (eq : progress.2 = progress'.2) :
    progress.finish.map Compiled.outline = progress'.finish.map Compiled.outline := by
  obtain ⟨s, error⟩ := progress
  obtain ⟨s', error'⟩ := progress'
  cases eq
  have broken : hasAbort s.env.diagnostics = hasAbort s'.env.diagnostics := by
    rw [hasAbort_eq, hasAbort_eq, alike.env.severities]
  unfold Progress.finish
  rw [broken]
  split
  · rfl
  · cases error with
    | some error => rfl
    | none =>
      have outline : s.finish.outline = s'.finish.outline := by
        unfold Session.finish Compiled.outline
        rw [alike.program, alike.openBlocks.severities, alike.tally]
      exact congrArg Except.ok outline

def Progress.onward (files : FileSystem) (compile : Text → Session → Progress)
    (lines : List Text) : Progress → Progress
  | (s, some error) => (s, some error)
  | (s, none) => Session.allLines files compile lines s

namespace Session

theorem allLines_cons (fs : FileSystem) (compile : Text → Session → Progress) (raw : Text)
    (rest : List Text) (s : Session) :
    allLines fs compile (raw :: rest) s = (s.line fs compile raw).onward fs compile rest := by
  unfold allLines
  obtain ⟨after, error⟩ := s.line fs compile raw
  cases error <;> rfl

theorem allLines_append (fs : FileSystem) (compile : Text → Session → Progress)
    (front back : List Text) (s : Session) :
    allLines fs compile (front ++ back) s =
      (allLines fs compile front s).onward fs compile back := by
  induction front generalizing s with
  | nil => rfl
  | cons raw rest ih =>
    rw [List.cons_append, allLines_cons, allLines_cons]
    obtain ⟨after, error⟩ := s.line fs compile raw
    cases error with
    | none => exact ih after
    | some error => rfl

variable {fs : FileSystem} {path : Text} {s : Session}

theorem includeWithin_succ {fuel : Nat} {text : Text} (unread : s.env.isReading fs path = false)
    (readable : fs.readText path = .ok text) :
    includeWithin fs (fuel + 1) path s = s.source fs (includeWithin fs fuel) path text := by
  rw [includeWithin, if_neg (ne_true_of_eq_false unread), fileFrom, readable]
  rfl

theorem line_eq_source {fuel : Nat} {raw text : Text}
    (included : (s.inclusion? fs raw).map Prod.fst = some path)
    (unread : s.env.isReading fs path = false) (readable : fs.readText path = .ok text) :
    s.line fs (includeWithin fs (fuel + 1)) raw =
      source fs (includeWithin fs fuel) path text { s with env := s.env.nextLine } := by
  obtain ⟨⟨path, next⟩, entered, rfl⟩ := Option.map_eq_some_iff.mp included
  obtain ⟨-, -, counted⟩ := of_inclusion? entered
  have unread' : next.env.isReading fs path = false := by
    rw [counted, Environment.isReading_eq, Environment.paths_nextLine, ← Environment.isReading_eq]
    exact unread
  rw [line_of_inclusion? entered, includeWithin_succ unread' readable, counted]

namespace Alike

variable {view : View}

theorem inline {s s' : Session} (alike : Alike view s s')
    (fs : FileSystem) (compile compile' : Text → Session → Progress) (path text : Text)
    (flat : ∀ raw ∈ Text.lines text,
      ¬Directive.IsInclusion (Text.trim (Lexical.expandTabs view.config.tabWidth raw))) :
    let ha := Session.source fs compile path text { s with env := s.env.nextLine }
    let inline := Session.allLines fs compile' (Text.lines text) s'
    Alike view ha.1 inline.1 ∧ ha.2 = inline.2 := by
  have entered := alike.withEnv (alike.env.nextLeft.pushLeft path)
  obtain ⟨after, eq⟩ := entered.allLines fs compile compile' (Text.lines text)
    fun ⟨raw, mem, inclusion⟩ => absurd inclusion (flat raw mem)
  exact ⟨after.withEnv after.env.popLeft, eq⟩

theorem onward {progress progress' : Progress} (alike : Alike view progress.1 progress'.1)
    (error : progress.2 = progress'.2) (fs : FileSystem) {compile : Text → Session → Progress}
    (ls : List Text)
    (included : view.reading.head? = view.reading'.head? ∧ Inclusions view compile compile) :
    Alike view (progress.onward fs compile ls).1 (progress'.onward fs compile ls).1 ∧
      (progress.onward fs compile ls).2 = (progress'.onward fs compile ls).2 := by
  obtain ⟨s, error⟩ := progress
  obtain ⟨s', error'⟩ := progress'
  cases error
  cases error with
  | none => exact allLines alike fs _ _ ls fun _ => included
  | some error => exact ⟨alike, rfl⟩

end Alike

/-- **Inclusion is inlining.** A source that is read up to a directive that includes a file, the
file being readable, not being read already and including nothing itself, does what the source does
that has the lines of the file in place of the directive: it stops with the same error or with none,
and it leaves the same lines, tables, counts, open blocks and open constructs, and diagnostics of
the same severities. So it does for the text of a whole program, and for a file that is included
itself and may go on to include further files. -/
theorem source_alike_inline (files : FileSystem) (fuel : Nat) (session : Session) (path : Text)
    (source inlined included directive target : Text) (front back : List Text) {reached : Session}
    (sourceLines : Text.lines source = front ++ directive :: back)
    (inlinedLines : Text.lines inlined = front ++ (Text.lines included ++ back))
    (reaches : allLines files (includeWithin files (fuel + 1)) front
      { session with env := session.env.pushSource path } = (reached, none))
    (includes : (reached.inclusion? files directive).map Prod.fst = some target)
    (unread : reached.env.isReading files target = false)
    (readable : files.readText target = .ok included)
    (flat : ∀ raw ∈ Text.lines included, ¬Directive.IsInclusion
      (Text.trim (Lexical.expandTabs session.env.config.tabWidth raw))) :
    let apart := session.source files (includeWithin files (fuel + 1)) path source
    let inline := session.source files (includeWithin files (fuel + 1)) path inlined
    apart.2 = inline.2 ∧ Alike session.env.view apart.1 inline.1 ∧
      apart.finish.map Compiled.outline = inline.finish.map Compiled.outline := by
  have further : Alike.Inclusions (session.env.view.push path path)
      (includeWithin files (fuel + 1)) (includeWithin files (fuel + 1)) :=
    Alike.includeWithin files (fuel + 1) rfl
  -- the run up to the directive is the same, so what it reaches is alike to itself
  have start := session.alike_refl
  have fronts := (start.withEnv (start.env.pushSource path path)).allLines files _ _ front
    fun _ => ⟨rfl, further⟩
  rw [reaches] at fronts
  obtain ⟨middle, error⟩ := fronts.1.inline files (includeWithin files fuel)
    (includeWithin files (fuel + 1)) target included flat
  obtain ⟨after, same⟩ := middle.onward error files back ⟨rfl, further⟩
  rw [← line_eq_source includes unread readable, ← allLines_cons, ← allLines_append] at after same
  have apart : allLines files (includeWithin files (fuel + 1)) (Text.lines source)
      { session with env := session.env.pushSource path } =
        allLines files (includeWithin files (fuel + 1)) (directive :: back) reached := by
    rw [sourceLines, allLines_append, reaches]
    rfl
  have inline : allLines files (includeWithin files (fuel + 1)) (Text.lines inlined)
      { session with env := session.env.pushSource path } =
        allLines files (includeWithin files (fuel + 1)) (Text.lines included ++ back) reached := by
    rw [inlinedLines, allLines_append, reaches]
    rfl
  rw [← apart, ← inline] at after same
  have closed := after.withEnv after.env.popSource
  exact ⟨same, closed, outline_finish closed same⟩

/-- A file that ends a conditional of the source around it, opens a block and leaves a comment
open. -/
theorem source_alike_inline_across_ends :
    let included := "#endif\nif x then\n/* a\n".toList
    let files : FileSystem :=
      ⟨[(Place.here.child "lib".toList, .file included.utf8Encode.data.toList)]⟩
    let source := "#ifdef __pplus\n#include \"lib\"\nb */\ny := x;\nend;\n".toList
    let inlined := "#ifdef __pplus\n#endif\nif x then\n/* a\nb */\ny := x;\nend;\n".toList
    (compileTextWith {} files source).map Compiled.outline =
        (compileTextWith {} files inlined).map Compiled.outline ∧
      (compileTextWith {} files source).map Compiled.text =
        .ok "IF x THEN\n  y := x;\nEND;\n".toList := by
  intro included files source inlined
  have reached {progress : Progress} (ends : progress.2 = none) : progress = (progress.1, none) :=
    Prod.ext rfl ends
  have run := source_alike_inline files files.entries.length (start {}) [] source inlined
    included "#include \"lib\"".toList "lib".toList ["#ifdef __pplus".toList]
    ["b */".toList, "y := x;".toList, "end;".toList]
    (by decide +kernel) (by decide +kernel) (reached (by decide +kernel))
    (by decide +kernel) (by decide +kernel) (by decide +kernel) (by decide +kernel)
  exact ⟨run.2.2, by decide +kernel⟩

end Session

end PrimePlus
