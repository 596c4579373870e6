import PrimePlus.Proofs.RelatedEnvironments
import PrimePlus.Proofs.UnplacedTables

/-!
Redefinitions: what is taken is refused with a warning, except for a record.
-/

namespace PrimePlus

open List Construct Environment
open Directive (define)
open RuleDeclaration (ofLine?)
open Text (trim)

namespace Environment

structure SameTables (env env' : Environment) : Prop where
  config : env.config = env'.config
  aliases : env.aliases = env'.aliases
  rules : env.rules = env'.rules
  depth : env.depth = env'.depth
  sources : env.sources = env'.sources

theorem sameTables_note (env : Environment) (told : List Diagnostic) :
    SameTables (env.note told) env :=
  ⟨rfl, rfl, rfl, rfl, rfl⟩

namespace SameTables

variable {env env' : Environment}

theorem refl (env : Environment) : SameTables env env :=
  ⟨rfl, rfl, rfl, rfl, rfl⟩

theorem trans {last : Environment} (first : SameTables env env') (second : SameTables env' last) :
    SameTables env last :=
  ⟨first.config.trans second.config, first.aliases.trans second.aliases,
    first.rules.trans second.rules, first.depth.trans second.depth,
    first.sources.trans second.sources⟩

section

variable (eq : SameTables env env')

include eq

theorem note (told told' : List Diagnostic) : SameTables (env.note told) (env'.note told') :=
  { eq with }

theorem location : env.location = env'.location := by
  rw [Environment.location, Environment.location, eq.sources]

theorem site : env.site = env'.site := by
  rw [Environment.site, Environment.site, eq.location, eq.depth]

theorem withAliases {tbl table' : Alias.Table} (tables : tbl = table') :
    SameTables { env with aliases := tbl } { env' with aliases := table' } :=
  { eq with aliases := tables }

theorem declare (ident : Alias.Identity) : SameTables (env.declare ident) (env'.declare ident) := by
  have offered : (env.aliases.offer env.site ident).1 = (env'.aliases.offer env'.site ident).1 := by
    rw [eq.aliases, eq.site]
  exact (eq.withAliases offered).note _ _

theorem enter : SameTables env.enter env'.enter :=
  { eq with depth := congrArg (· + 1) eq.depth }

theorem leave : SameTables env.leave.1 env'.leave.1 ∧ env.leave.2 = env'.leave.2 := by
  unfold Environment.leave
  rw [← eq.depth]
  cases env.depth with
  | zero => exact ⟨eq.note _ _, rfl⟩
  | succ d =>
    refine ⟨{ eq with aliases := ?_, rules := ?_, depth := rfl }, rfl⟩
    · exact congrArg (fun tbl => Alias.Table.purge tbl d) eq.aliases
    · exact congrArg (fun rules => RuleSet.purge rules d) eq.rules

theorem nextLine : SameTables env.nextLine env'.nextLine := by
  have sources : env.nextLine.sources = env'.nextLine.sources := by
    unfold Environment.nextLine
    rw [eq.sources]
    cases env'.sources with
    | nil => exact eq.sources
    | cons source outer => rfl
  rw [env.nextLine_eq, env'.nextLine_eq]
  exact { eq with sources := sources }

theorem readRule? (l : Text) :
    SameTables ((env.readRule? l).getD env) ((env'.readRule? l).getD env') := by
  unfold Environment.readRule?
  rw [eq.rules, eq.site]
  cases env'.rules.readLine? env'.site l with
  | none => exact eq
  | some next => exact { eq with rules := rfl }

end

end SameTables

/-- Reports are written and never read. -/
theorem isCongruence_sameTables : IsCongruence SameTables where
  depth := SameTables.depth
  hasName eq identifier := by rw [eq.aliases]
  hasReal eq real := by rw [eq.aliases]
  nextFree eq n last := by rw [eq.aliases]
  real eq identifier := by rw [eq.aliases]
  report eq severity message := eq.note _ _
  declare := SameTables.declare
  remove eq identifier := eq.withAliases (by rw [eq.aliases])
  useNamespace eq name := eq.withAliases (by rw [eq.aliases, eq.depth])
  removeNamespace eq name := eq.withAliases (by rw [eq.aliases])
  tell eq verbose := eq.withAliases (by rw [eq.aliases])
  resolveAliases eq t := ⟨by simp only [resolveAliases, eq.aliases, eq.location], eq.note _ _⟩
  foldWhole eq t := ⟨rfl, eq.note _ _⟩

end Environment

theorem countOf_append_of_unwarned {told more : List Diagnostic}
    (unwarned : Severity.warning ∉ severities more) :
    countOf .warning (told ++ more) = countOf .warning told := by
  have none : countOf .warning more = 0 := by
    refine countP_eq_zero.mpr fun diagnostic mem warns => unwarned ?_
    exact mem_map.mpr ⟨diagnostic, mem, by simpa using warns⟩
  rw [countOf, countP_append]
  exact congrArg (countOf .warning told + ·) none

/-- What declarations are kept in, and what is remembered from line to line. -/
structure Tables where
  memory : Memory := {}
  env : Environment

inductive Tables.Step where
  | enter
  | leave
  | nextLine
  /-- A name is declared, as constructs declare each of the names on a line. -/
  | declare (identity : Alias.Identity)
  | define (rest : Text)
  | undefine (name : Text)
  | rule (line : Text)
  | look (construct : Construct) (line : Text)
  | lookUp (name : Text)
  | substitute (t : Text)
  | rewrite (t : Text)

/-- The steps that declare one thing: a name, a macro, a pattern rule, or a name by a statement of
its own. -/
inductive Tables.Step.IsDeclaration : Step → Prop
  | declare (identity : Alias.Identity) : IsDeclaration (.declare identity)
  | define (rest : Text) : IsDeclaration (.define rest)
  | rule (line : Text) : IsDeclaration (.rule line)
  | synonym (line : Text) : IsDeclaration (.look .synonym line)
  | definition (line : Text) : IsDeclaration (.look .definition line)

namespace Tables

/-- The text that a step gives, if any, and the tables after it. With the outermost block all is
forgotten that belongs to a function. -/
def step (tables : Tables) : Step → Option Text × Tables
  | .enter => (none, { tables with env := tables.env.enter })
  | .leave =>
    let (env, left) := tables.env.leave
    (none, ⟨if left && env.depth == 0 then tables.memory.reset else tables.memory, env⟩)
  | .nextLine => (none, { tables with env := tables.env.nextLine })
  | .declare identity => (none, { tables with env := tables.env.declare identity })
  | .define rest => (none, { tables with env := define tables.env rest })
  | .undefine name => (none, { tables with
      env := { tables.env with aliases := tables.env.aliases.remove name } })
  | .rule line => (none, { tables with env := (tables.env.readRule? line).getD tables.env })
  | .look construct line =>
    let outcome := construct.apply tables.memory tables.env line
    (outcome.line, ⟨outcome.memory, outcome.env⟩)
  | .lookUp name => ((tables.env.aliases.get? name).map Alias.Identity.real, tables)
  | .substitute t =>
    let (resolved, env) := tables.env.resolveAliases t
    (some resolved, { tables with env := env })
  | .rewrite t =>
    let (resolved, env) := tables.env.resolveRules t
    (some resolved, { tables with env := env })

def run (tables : Tables) : List Step → List (Option Text) × Tables
  | [] => ([], tables)
  | step :: rest =>
    let (text, next) := tables.step step
    let (texts, last) := next.run rest
    (text :: texts, last)

def Warns (tables : Tables) (step : Step) : Prop :=
  countOf .warning tables.env.diagnostics < countOf .warning (tables.step step).2.env.diagnostics

instance (tables : Tables) (step : Step) : Decidable (tables.Warns step) :=
  inferInstanceAs (Decidable (_ < _))

structure Same (tables tables' : Tables) : Prop where
  memory : tables.memory = tables'.memory
  env : tables.env.SameTables tables'.env

variable {tables tables' : Tables}

theorem Same.step (eq : Same tables tables') (step : Step) :
    (tables.step step).1 = (tables'.step step).1 ∧
      Same (tables.step step).2 (tables'.step step).2 := by
  have stable := isCongruence_sameTables
  obtain ⟨memory, env⟩ := eq
  cases step with
  | enter => exact ⟨rfl, memory, env.enter⟩
  | leave =>
    obtain ⟨after, left⟩ := env.leave
    refine ⟨rfl, ?_, after⟩
    dsimp only [Tables.step]
    rw [memory, left, after.depth]
  | nextLine => exact ⟨rfl, memory, env.nextLine⟩
  | declare ident => exact ⟨rfl, memory, env.declare ident⟩
  | define r => exact ⟨rfl, memory, Directive.define_related stable env r⟩
  | undefine n => exact ⟨rfl, memory, stable.remove env n⟩
  | rule l => exact ⟨rfl, memory, env.readRule? l⟩
  | look con l =>
    dsimp only [Tables.step]
    rw [← memory]
    obtain ⟨text, next, after⟩ := apply_related stable env con tables.memory l
    exact ⟨text, next, after⟩
  | lookUp n => exact ⟨stable.real env n, memory, env⟩
  | substitute t =>
    obtain ⟨text, after⟩ := stable.resolveAliases env t
    exact ⟨congrArg some text, memory, after⟩
  | rewrite t =>
    refine ⟨?_, memory, env.note _ _⟩
    dsimp only [Tables.step, resolveRules]
    rw [env.rules, env.depth, env.location]

theorem Same.run (eq : Same tables tables') (steps : List Step) :
    (tables.run steps).1 = (tables'.run steps).1 ∧
      Same (tables.run steps).2 (tables'.run steps).2 := by
  induction steps generalizing tables tables' with
  | nil => exact ⟨rfl, eq⟩
  | cons step r ih =>
    obtain ⟨text, next⟩ := eq.step step
    obtain ⟨texts, last⟩ := ih next
    exact ⟨congrArg₂ cons text texts, last⟩

end Tables

theorem Alias.Table.offer_refuses_or_tells_nothing (tbl : Table) (site : Site) (ident : Identity) :
    (tbl.offer site ident).1 = tbl ∨ (tbl.offer site ident).2.2 = [] := by
  unfold offer
  split
  · exact .inr rfl
  · exact .inl rfl

theorem Alias.Table.countOf_offer (tbl : Table) (site : Site) (ident : Identity) :
    countOf .warning (tbl.offer site ident).2.2 =
      if trim ident.identifier ≠ [] ∧
        tbl.hasName (ident.declaredAt site).identifier then 1 else 0 := by
  unfold offer append hasName
  dsimp only
  by_cases unnamed : trim ident.identifier = []
  · simp [unnamed, Rejection.diagnostics, countOf]
  cases tbl.get? (ident.declaredAt site).identifier with
  | some prior => simp [unnamed, Rejection.diagnostics, countOf]
  | none =>
    cases Entry.compile? tbl.namespaceNames (ident.declaredAt site) with
    | none => simp [unnamed, Rejection.diagnostics, Error.diagnostic, Error.severity, countOf]
    | some e => simp [unnamed, countOf]

theorem RuleSet.readLine?_refuses_or_tells_nothing {set : RuleSet} {site : Site} {l : Text}
    {next : Reported RuleSet} (read : set.readLine? site l = some next) :
    next.1 = set ∨ next.2 = [] := by
  obtain ⟨decl, -, rfl⟩ := Option.map_eq_some_iff.mp read
  split
  · exact .inr rfl
  · exact .inl rfl

theorem RuleSet.countOf_readLine? (set : RuleSet) (site : Site) (l : Text)
    (decl : RuleDeclaration) (declared : ofLine? l = some decl) :
    ∃ next, set.readLine? site l = some next ∧
      countOf .warning next.2 =
        if ∃ rule ∈ set.rules, rule.pattern = decl.pattern then 1 else 0 := by
  refine ⟨_, congrArg (Option.map _) declared, ?_⟩
  dsimp only
  unfold declare
  cases hit : set.rules.find? fun rule => rule.pattern == decl.pattern with
  | some prior =>
    have taken : ∃ rule ∈ set.rules, rule.pattern = decl.pattern :=
      ⟨prior, mem_of_find?_eq_some hit, by simpa using find?_some hit⟩
    rw [if_pos taken]
    rfl
  | none =>
    have free : ¬∃ rule ∈ set.rules, rule.pattern = decl.pattern := by
      rintro ⟨rule, mem, eq⟩
      simpa [eq] using find?_eq_none.mp hit rule mem
    rw [if_neg free]
    cases decl.pattern.matcher? decl.ignoreCase with
    | none => rfl
    | some matcher => rfl

namespace Environment

theorem sameTables_declare (env : Environment) (ident : Alias.Identity) :
    (env.declare ident).SameTables env ∨ (env.declare ident).diagnostics = env.diagnostics := by
  rcases env.aliases.offer_refuses_or_tells_nothing env.site ident with refused | told
  · exact .inl ⟨rfl, refused, rfl, rfl, rfl⟩
  · exact .inr ((congrArg (env.diagnostics ++ ·) told).trans (append_nil _))

theorem sameTables_readRule? (env : Environment) (l : Text) :
    ((env.readRule? l).getD env).SameTables env ∨
      ((env.readRule? l).getD env).diagnostics = env.diagnostics := by
  unfold readRule?
  cases read : env.rules.readLine? env.site l with
  | none => exact .inl (.refl env)
  | some next =>
    rcases RuleSet.readLine?_refuses_or_tells_nothing read with refused | told
    · exact .inl ⟨rfl, rfl, refused, rfl, rfl⟩
    · exact .inr ((congrArg (env.diagnostics ++ ·) told).trans (append_nil _))

theorem define_cases (env : Environment) (r : Text) :
    (define env r).SameTables env ∨
      ∃ told identity, Severity.warning ∉ severities told ∧
        define env r = (env.note told).declare identity := by
  unfold define
  split
  · exact .inl (sameTables_note env _)
  · next hit _ =>
    have resolved := env.aliases.resolve_alike env.location {} (trim (hit.group 3))
    have folded := Expression.reported_alike env.location {}
      (Expression.foldWhole (env.aliases.resolve env.location (trim (hit.group 3))).1)
    have noted : ((env.resolveAliases (trim (hit.group 3))).2.foldWhole
        (env.resolveAliases (trim (hit.group 3))).1).2 = env.note (_ ++ _) :=
      congrArg (fun told => { env with diagnostics := told }) (append_assoc _ _ _)
    exact .inr ⟨_, _, (resolved.2.append folded.2).unwarned, congrArg (declare · _) noted⟩

theorem sameTables_define (env : Environment) (r : Text) :
    (define env r).SameTables env ∨
      countOf .warning (define env r).diagnostics = countOf .warning env.diagnostics := by
  rcases env.define_cases r with eq | ⟨told, identity, unwarned, declared⟩
  · exact .inl eq
  · rw [declared]
    rcases (env.note told).sameTables_declare identity with refused | silent
    · exact .inl (refused.trans (sameTables_note env told))
    · rw [silent]
      exact .inr (countOf_append_of_unwarned unwarned)

end Environment

namespace Tables

variable {tables : Tables}

theorem same_or_unwarned {step : Step} (decl : step.IsDeclaration) (tables : Tables) :
    Same (tables.step step).2 tables ∨
      countOf .warning (tables.step step).2.env.diagnostics =
        countOf .warning tables.env.diagnostics := by
  have ofDeclare (ident : Alias.Identity) :
      Same { tables with env := tables.env.declare ident } tables ∨
        countOf .warning (tables.env.declare ident).diagnostics =
          countOf .warning tables.env.diagnostics :=
    (tables.env.sameTables_declare ident).imp (⟨rfl, ·⟩) (congrArg _)
  cases decl with
  | declare ident => exact ofDeclare ident
  | define r => exact (tables.env.sameTables_define r).imp_left (⟨rfl, ·⟩)
  | rule l => exact (tables.env.sameTables_readRule? l).imp (⟨rfl, ·⟩) (congrArg _)
  | synonym l =>
    dsimp only [step, apply]
    unfold synonym?
    cases synonymPattern.find? (trim l) with
    | none => exact .inr rfl
    | some hit => exact ofDeclare _
  | definition l =>
    dsimp only [step, apply]
    unfold definition?
    dsimp only
    cases removalPattern.find? (trim l) with
    | some hit => exact .inr rfl
    | none =>
      cases definitionPattern.find? (trim l) with
      | none => exact .inr rfl
      | some hit => exact ofDeclare _

theorem run_of_warns {step : Step} (decl : step.IsDeclaration) (warns : tables.Warns step)
    (later : List Step) :
    ((tables.step step).2.run later).1 = (tables.run later).1 ∧
      Same ((tables.step step).2.run later).2 (tables.run later).2 := by
  rcases same_or_unwarned decl tables with eq | unwarned
  · exact eq.run later
  · exact absurd unwarned (Nat.ne_of_gt warns)

theorem warns_declare_iff (tables : Tables) (ident : Alias.Identity) :
    tables.Warns (.declare ident) ↔ trim ident.identifier ≠ [] ∧
      tables.env.aliases.hasName (ident.declaredAt tables.env.site).identifier := by
  have told : countOf .warning (tables.step (.declare ident)).2.env.diagnostics =
      countOf .warning tables.env.diagnostics +
        countOf .warning (tables.env.aliases.offer tables.env.site ident).2.2 :=
    countP_append
  rw [Warns, told, Alias.Table.countOf_offer]
  split
  · next taken => exact iff_of_true (Nat.lt_succ_self _) taken
  · next free => exact iff_of_false (Nat.lt_irrefl _) free

theorem warns_rule_iff (tables : Tables) (l : Text) :
    tables.Warns (.rule l) ↔ ∃ decl, ofLine? l = some decl ∧
      ∃ rule ∈ tables.env.rules.rules, rule.pattern = decl.pattern := by
  cases declared : ofLine? l with
  | none =>
    have eq : (tables.step (.rule l)).2 = tables := by
      dsimp only [step, readRule?, RuleSet.readLine?]
      rw [declared]
      rfl
    rw [Warns, eq]
    exact iff_of_false (Nat.lt_irrefl _) fun ⟨_, impossible, _⟩ => nomatch impossible
  | some decl =>
    obtain ⟨next, read, count⟩ := tables.env.rules.countOf_readLine? tables.env.site l decl declared
    have told : countOf .warning (tables.step (.rule l)).2.env.diagnostics =
        countOf .warning tables.env.diagnostics + countOf .warning next.2 := by
      dsimp only [step, readRule?]
      rw [read]
      exact countP_append
    rw [Warns, told, count]
    split
    · next taken => exact iff_of_true (Nat.lt_succ_self _) ⟨decl, rfl, taken⟩
    · next free =>
      refine iff_of_false (Nat.lt_irrefl _) ?_
      rintro ⟨_, eq, taken⟩
      cases eq
      exact free taken

theorem run_append (tables : Tables) (first second : List Step) :
    (tables.run (first ++ second)).2 = ((tables.run first).2.run second).2 := by
  induction first generalizing tables with
  | nil => rfl
  | cons step r ih => exact ih _

section Records

def membersIn (body : List Text) : List Text :=
  body.flatMap fun line => Records.membersOf (trim line)

def withRecords (tables : Tables) (records : Records) (env : Environment) : Tables :=
  ⟨{ tables.memory with records := records }, env⟩

theorem step_record {l written : Text} {records : Records} {env : Environment}
    (lowered : tables.memory.records.lower? tables.env l = some (written, records, env)) :
    (tables.step (.look .record l)).2 = tables.withRecords records env := by
  dsimp only [step, apply]
  rw [lowered]
  rfl

def readRecords (tables : Tables) (lines : List Text) : Tables :=
  (tables.run (lines.map (.look .record))).2

/-- Whether lines declare a record whose name is known: a first line, lines with members, and a last
line. -/
structure Redeclares (tables : Tables) (identifier header : Text) (body : List Text)
    (closing : Text) : Prop where
  free : tables.memory.records.opened = none
  starts : (Records.startPattern.find? (trim header)).map (Match.group · 1) = some identifier
  known : (tables.memory.records.get? identifier).isSome = true
  inside : ∀ line ∈ body, endPattern.isMatch (trim line) = false
  closes : endPattern.isMatch (trim closing) = true

variable {identifier header closing : Text} {body : List Text}
  (redeclares : tables.Redeclares identifier header body closing)

include redeclares in
theorem step_header :
    (tables.step (.look .record header)).2 =
      tables.withRecords
        { tables.memory.records with opened := some ⟨identifier, [], tables.env.depth != 0⟩ }
        (tables.env.report .warning
          ("redefinition of struct '".toList ++ identifier ++ ['\''])) := by
  obtain ⟨hit, starts, rfl⟩ := Option.map_eq_some_iff.mp redeclares.starts
  refine @step_record tables header [] _ _ ?_
  unfold Records.lower?
  dsimp only
  rw [redeclares.free, starts]
  dsimp only
  rw [if_pos redeclares.known]
  rfl

theorem step_inside {record : Record} (opened : tables.memory.records.opened = some record)
    (l : Text) :
    (tables.step (.look .record l)).2 =
      tables.withRecords (tables.memory.records.continueWith record (trim l)) tables.env := by
  refine @step_record tables l [] _ _ ?_
  unfold Records.lower?
  rw [opened]

theorem readRecords_inside {record : Record} (opened : tables.memory.records.opened = some record)
    (hi : ∀ l ∈ body, endPattern.isMatch (trim l) = false) :
    tables.readRecords body =
      tables.withRecords { tables.memory.records with
          opened := some { record with members := record.members ++ membersIn body } }
        tables.env := by
  induction body generalizing tables record with
  | nil =>
    obtain ⟨⟨stash, enumeration, ⟨known, current, generated⟩, naming, switches, loops⟩, env⟩ :=
      tables
    cases opened
    simp [readRecords, run, withRecords, membersIn]
  | cons l r ih =>
    have step := step_inside opened l
    rw [Records.continueWith, hi l mem_cons_self] at step
    have hsuf := ih (congrArg (fun next : Tables => next.memory.records.opened) step)
      (forall_mem_cons.mp hi).2
    refine hsuf.trans ?_
    rw [step]
    simp [withRecords, membersIn]

include redeclares in
theorem readRecords_started {ls : List Text} (part : ls <+: body) :
    tables.readRecords (header :: ls) =
      tables.withRecords
        { tables.memory.records with
          opened := some ⟨identifier, membersIn ls, tables.env.depth != 0⟩ }
        (tables.env.report .warning
          ("redefinition of struct '".toList ++ identifier ++ ['\''])) := by
  have started := step_header redeclares
  have read := @readRecords_inside (tables.step (.look .record header)).2 ls _
    (congrArg (fun next : Tables => next.memory.records.opened) started)
    fun l mem => redeclares.inside l (part.subset mem)
  refine read.trans ?_
  rw [started]
  rfl

include redeclares in
theorem readRecords_redeclared :
    tables.readRecords (header :: body ++ [closing]) =
      tables.withRecords { tables.memory.records with
          known := (tables.memory.records.known.filter fun o =>
              o.identifier != identifier) ++
            [⟨identifier, membersIn body, tables.env.depth != 0⟩],
          opened := none }
        (tables.env.report .warning
          ("redefinition of struct '".toList ++ identifier ++ ['\''])) := by
  have read := readRecords_started redeclares (prefix_refl body)
  have hc := step_inside (congrArg (fun next : Tables => next.memory.records.opened) read) closing
  rw [Records.continueWith, if_pos redeclares.closes] at hc
  rw [readRecords, map_append, run_append]
  refine hc.trans ?_
  rw [read]
  rfl

theorem get?_redeclared (records : Records) (record : Record) (name : Text) :
    ({ records with
        known := (records.known.filter fun o => o.identifier != record.identifier) ++ [record],
        opened := none } : Records).get? name =
      if name = record.identifier then some record else records.get? name := by
  unfold Records.get?
  rw [find?_append, find?_filter]
  simp only [Bool.decide_and, Bool.decide_eq_true]
  split
  · next eq =>
    have gone : records.known.find? (fun o =>
        o.identifier != record.identifier && o.identifier == name) = none := by
      rw [eq]
      simp
    rw [gone, eq]
    simp
  · next o =>
    have kept : records.known.find? (fun e =>
        e.identifier != record.identifier && e.identifier == name) =
        records.known.find? fun e => e.identifier == name := by
      congr 1
      funext e
      by_cases eq : e.identifier = name
      · simp [eq, o]
      · simp [eq]
    have last : (record.identifier == name) = false := by simpa using fun eq => o eq.symm
    rw [kept]
    simp [last]

theorem get?_reset_of_isLocal {records : Records} {n : Text}
    (isLocal : ∀ record ∈ records.known, record.identifier = n → record.isLocal) :
    records.reset.get? n = none := by
  refine find?_eq_none.mpr fun record mem => ?_
  obtain ⟨known, isGlobal⟩ := mem_filter.mp mem
  intro eq
  rw [isLocal record known (beq_iff_eq.mp eq)] at isGlobal
  cases isGlobal

theorem step_leave {depth : Nat} (within : tables.env.depth = depth + 1) :
    (tables.step .leave).2.env.depth = depth ∧
      (tables.step .leave).2.memory = if depth = 0 then tables.memory.reset else tables.memory := by
  have left : tables.env.leave.2 ∧ tables.env.leave.1.depth = depth := by
    unfold leave
    rw [within]
    exact ⟨rfl, rfl⟩
  simp [step, left.1, left.2]

theorem memory_run_leave {d : Nat} (within : tables.env.depth = d + 1) :
    (tables.run (replicate (d + 1) .leave)).2.memory = tables.memory.reset := by
  induction d generalizing tables with
  | zero => exact (step_leave within).2
  | succ d ih =>
    obtain ⟨inner, memory⟩ := step_leave within
    exact (ih inner).trans (congrArg Memory.reset memory)

include redeclares in
theorem get?_after_function (within : tables.env.depth ≠ 0) :
    ((tables.readRecords (header :: body ++ [closing])).run
      (replicate tables.env.depth .leave)).2.memory.records.get? identifier = none := by
  have read := readRecords_redeclared redeclares
  obtain ⟨d, deep⟩ := Nat.exists_eq_succ_of_ne_zero within
  have stays : (tables.readRecords (header :: body ++ [closing])).env.depth = d + 1 := by
    rw [read]
    exact deep
  have memory := memory_run_leave stays
  rw [deep, memory, read]
  refine get?_reset_of_isLocal fun record mem hn => ?_
  rcases mem_append.mp mem with old | second
  · obtain ⟨-, o⟩ := mem_filter.mp old
    rw [hn] at o
    simp at o
  · rw [mem_singleton.mp second]
    simpa using within

end Records

/-- A declaration whose name or pattern is taken is warned of and has no part in what follows: each
later step gives the same text, and the tables are the same but for the report. A second record of
one name is warned of at its first line, and up to its last line the first stays in force; then the
second takes its place, and where it stands inside a block neither is left at the end of the
function. -/
theorem refused_declaration_has_no_part (tables : Tables) :
    (∀ identity, tables.Warns (.declare identity) ↔ trim identity.identifier ≠ [] ∧
      tables.env.aliases.hasName (identity.declaredAt tables.env.site).identifier) ∧
    (∀ line, tables.Warns (.rule line) ↔
      ∃ declaration, ofLine? line = some declaration ∧
        ∃ rule ∈ tables.env.rules.rules, rule.pattern = declaration.pattern) ∧
    (∀ step : Step, step.IsDeclaration → tables.Warns step → ∀ later,
      ((tables.step step).2.run later).1 = (tables.run later).1 ∧
        Same ((tables.step step).2.run later).2 (tables.run later).2) ∧
    ∀ identifier header body closing, tables.Redeclares identifier header body closing →
      tables.Warns (.look .record header) ∧
      (∀ lines, lines <+: header :: body →
        (tables.readRecords lines).memory.records.known = tables.memory.records.known) ∧
      (tables.readRecords (header :: body ++ [closing])).env.SameTables tables.env ∧
      (∀ name, (tables.readRecords (header :: body ++ [closing])).memory.records.get? name =
        if name = identifier then some ⟨identifier, membersIn body, tables.env.depth != 0⟩
        else tables.memory.records.get? name) ∧
      (tables.env.depth ≠ 0 →
        ((tables.readRecords (header :: body ++ [closing])).run
          (replicate tables.env.depth .leave)).2.memory.records.get? identifier = none) := by
  refine ⟨tables.warns_declare_iff, tables.warns_rule_iff,
    fun step declaration warns later => run_of_warns declaration warns later, ?_⟩
  intro identifier header body closing redeclares
  have read := readRecords_redeclared redeclares
  refine ⟨?_, fun lines part => ?_, ?_, fun name => ?_, get?_after_function redeclares⟩
  · rw [Warns, step_header redeclares]
    simp [withRecords, report, note, countOf]
  · cases lines with
    | nil => rfl
    | cons line rest =>
      obtain ⟨rfl, inner⟩ := cons_prefix_cons.mp part
      rw [readRecords_started redeclares inner]
      rfl
  · rw [read]
    exact sameTables_note tables.env _
  · rw [read]
    exact get?_redeclared tables.memory.records
      ⟨identifier, membersIn body, tables.env.depth != 0⟩ name

/-- The second of two names is refused inside a block; the second of two records is not. -/
theorem refused_declaration_has_no_part_twice :
    let identity : Alias.Identity := { identifier := "A".toList, real := "1".toList }
    let tables := (((⟨{}, start {}⟩ : Tables).readRecords
      ["struct P".toList, "x[1];".toList, "end;".toList]).run [.declare identity, .enter]).2
    let again : Step := .declare { identity with real := "2".toList }
    let later : List Step := [.substitute "A".toList, .leave, .lookUp "A".toList]
    ((tables.step again).2.run later).1 = (tables.run later).1 ∧
      (tables.readRecords ["struct P".toList, "y[2];".toList,
        "end;".toList]).memory.records.get? "P".toList = some ⟨"P".toList, ["y[2]".toList], true⟩ :=
  ⟨((refused_declaration_has_no_part _).2.2.1 _ (.declare _) (by decide +kernel) _).1,
    ((refused_declaration_has_no_part _).2.2.2 "P".toList "struct P".toList ["y[2];".toList]
      "end;".toList ⟨by decide +kernel, by decide +kernel, by decide +kernel, by decide +kernel,
        by decide +kernel⟩).2.2.2.1 "P".toList |>.trans (by decide +kernel)⟩

/-- A record of a name that is taken replaces the first one, although it is warned of. -/
theorem second_record_takes_over :
    let tables := (⟨{}, start {}⟩ : Tables).readRecords
      ["struct P".toList, "x[1];".toList, "end;".toList]
    tables.memory.records.get? "P".toList = some ⟨"P".toList, ["x[1]".toList], false⟩ ∧
      tables.Warns (.look .record "struct P".toList) ∧
      (tables.readRecords ["struct P".toList, "y[2];".toList,
        "end;".toList]).memory.records.get? "P".toList =
          some ⟨"P".toList, ["y[2]".toList], false⟩ := by
  decide +kernel

end Tables

end PrimePlus
