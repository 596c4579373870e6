import Mathlib.Data.List.Infix
import Mathlib.Logic.Relation
import PrimePlus.Compile
import PrimePlus.Proofs.AliasTable
import PrimePlus.Proofs.RelatedEnvironments

/-!
Reading as a machine that takes one line at a time (`reaches_of_allLines`). Directives and
constructs change the table of identities by its own operations. -/

namespace PrimePlus

namespace Alias.Table

/-- One change to a table: an operation, or another choice of whether definitions are told. -/
inductive Changes (table : Table) : Table → Prop
  | operation (operation : Operation) : Changes table (table.after operation)
  | told (verbose : Bool) : Changes table { table with verbose := verbose }

theorem Changes.isCompiled {tbl next : Table} (changes : tbl.Changes next)
    (hc : tbl.IsCompiled) : next.IsCompiled := by
  cases changes with
  | operation operation => exact tbl.isCompiled_after hc operation
  | told verbose => exact hc

end Alias.Table

namespace Environment

/-- Whether one environment has the settings and the open blocks of another, and no report is taken
back. -/
structure Keeps (env after : Environment) : Prop where
  config : after.config = env.config
  depth : after.depth = env.depth
  diagnostics : env.diagnostics <+: after.diagnostics

structure Amends (env after : Environment) : Prop extends Keeps env after where
  rules : after.rules = env.rules
  aliases : Relation.ReflTransGen Alias.Table.Changes env.aliases after.aliases
  sources : after.sources = env.sources

variable {env after last : Environment}

namespace Keeps

theorem refl (env : Environment) : env.Keeps env :=
  ⟨rfl, rfl, List.prefix_refl _⟩

theorem trans (first : env.Keeps after) (second : after.Keeps last) : env.Keeps last :=
  ⟨second.config.trans first.config, second.depth.trans first.depth,
    first.diagnostics.trans second.diagnostics⟩

theorem withSources (env : Environment) (sources : List Location) :
    env.Keeps { env with sources := sources } :=
  ⟨rfl, rfl, List.prefix_refl _⟩

theorem nextLine (env : Environment) : env.Keeps env.nextLine := by
  rw [nextLine_eq]
  exact withSources env _

end Keeps

namespace Amends

theorem refl (env : Environment) : env.Amends env :=
  ⟨.refl env, rfl, .refl, rfl⟩

theorem trans (first : env.Amends after) (second : after.Amends last) : env.Amends last :=
  ⟨first.toKeeps.trans second.toKeeps, second.rules.trans first.rules,
    first.aliases.trans second.aliases, second.sources.trans first.sources⟩

theorem isCompiled (amends : env.Amends after) (hc : env.aliases.IsCompiled) :
    after.aliases.IsCompiled :=
  amends.aliases.head_induction_on (motive := fun tbl _ => tbl.IsCompiled →
    after.aliases.IsCompiled) id (fun changes _ ih hc => ih (changes.isCompiled hc))
    hc

theorem note (env : Environment) (diagnostics : List Diagnostic) :
    env.Amends (env.note diagnostics) :=
  ⟨⟨rfl, rfl, List.prefix_append _ _⟩, rfl, .refl, rfl⟩

theorem operate (env : Environment) (op : Alias.Operation) :
    env.Amends { env with aliases := env.aliases.after op } :=
  ⟨⟨rfl, rfl, List.prefix_refl _⟩, rfl, .single (.operation op), rfl⟩

theorem tell (env : Environment) (verbose : Bool) :
    env.Amends { env with aliases := { env.aliases with verbose := verbose } } :=
  ⟨⟨rfl, rfl, List.prefix_refl _⟩, rfl, .single (.told verbose), rfl⟩

theorem declare (env : Environment) (ident : Alias.Identity) : env.Amends (env.declare ident) :=
  (operate env (.append env.site ident)).trans (note _ _)

end Amends

end Environment

theorem Environment.isCongruence_amends (env : Environment) :
    IsCongruence fun after after' => after = after' ∧ env.Amends after where
  depth := by rintro _ _ ⟨rfl, -⟩; rfl
  hasName := by rintro _ _ ⟨rfl, -⟩ _; rfl
  hasReal := by rintro _ _ ⟨rfl, -⟩ _; rfl
  nextFree := by rintro _ _ ⟨rfl, -⟩ _ _; rfl
  real := by rintro _ _ ⟨rfl, -⟩ _; rfl
  report := by rintro _ _ ⟨rfl, amends⟩ _ _; exact ⟨rfl, amends.trans (.note _ _)⟩
  declare := by rintro _ _ ⟨rfl, amends⟩ _; exact ⟨rfl, amends.trans (.declare _ _)⟩
  remove := by rintro _ _ ⟨rfl, amends⟩ n; exact ⟨rfl, amends.trans (.operate _ (.remove n))⟩
  useNamespace := by
    rintro after _ ⟨rfl, amends⟩ n
    exact ⟨rfl, amends.trans (.operate _ (.addNamespace n after.depth))⟩
  removeNamespace := by
    rintro _ _ ⟨rfl, amends⟩ n
    exact ⟨rfl, amends.trans (.operate _ (.removeNamespace n))⟩
  tell := by rintro _ _ ⟨rfl, amends⟩ _; exact ⟨rfl, amends.trans (.tell _ _)⟩
  resolveAliases := by rintro _ _ ⟨rfl, amends⟩ _; exact ⟨rfl, rfl, amends.trans (.note _ _)⟩
  foldWhole := by rintro _ _ ⟨rfl, amends⟩ _; exact ⟨rfl, rfl, amends.trans (.note _ _)⟩

theorem Construct.amends_apply (con : Construct) (memory : Memory) (env : Environment)
    (l : Text) : env.Amends (con.apply memory env l).env :=
  (apply_related env.isCongruence_amends ⟨rfl, .refl env⟩ con memory l).env.2

theorem Directive.amends_read (fs : FileSystem) (l : Text) (st : DirectiveState)
    (env : Environment) : env.Amends (read fs l st env).2.2 :=
  (read_related env.isCongruence_amends ⟨rfl, .refl env⟩ fs l st fun _ _ => rfl).2.2.2

/-- What holds of the session that a compilation starts with, without computing it. -/
theorem Session.start_induction {motive : Session → Prop} {cfg : Config}
    (first : motive { env := Environment.start cfg })
    (step : ∀ s, ∀ l ∈ predefined, motive s →
      let read := Directive.read {} l s.directives s.env
      motive { s with directives := read.2.1, env := read.2.2 }) : motive (start cfg) :=
  List.foldlRecOn predefined _ first fun s held l mem => step s l mem held

theorem Session.amends_start (cfg : Config) : (Environment.start cfg).Amends (start cfg).env :=
  start_induction (motive := fun s => (Environment.start cfg).Amends s.env) (.refl _)
    fun s l _ pre => pre.trans (Directive.amends_read {} l s.directives s.env)

open List Session
open Directive (read)
open Lexical (expandTabs)
open Text

variable {fs : FileSystem} {s : Session}

namespace Session

variable {line : Text}

/-- The file that a line includes and the session that goes on to it, if the line includes one. -/
def inclusion? (files : FileSystem) (raw : Text) (s : Session) : Option (Text × Session) :=
  let s := { s with env := s.env.nextLine }
  if s.inComment then none
  else
    match read files (trim (expandTabs s.env.config.tabWidth raw))
      s.directives s.env with
    | (.inclusion path, directives, env) =>
      some (path, { s with directives := directives, env := env })
    | _ => none

def ownLine (files : FileSystem) (raw : Text) (s : Session) : Session :=
  (s.line files (fun _ s => (s, none)) raw).1

/-- The session after a file that is included, when further inclusions are nested to a bounded
depth. -/
def includeWithin (files : FileSystem) (fuel : Nat) (path : Text) (s : Session) : Progress :=
  if s.env.isReading files path then s.stop (.includeCycle path)
  else fileFrom files fuel path s

section Line

variable {fs : FileSystem} {raw : Text} {s : Session}

theorem of_inclusion? {path : Text} {next : Session}
    (included : s.inclusion? fs raw = some (path, next)) :
    s.inComment = false ∧ read fs (trim (expandTabs s.env.nextLine.config.tabWidth raw))
        s.directives s.env.nextLine =
          (.inclusion path, s.directives, s.env.nextLine) ∧
      next = { s with env := s.env.nextLine } := by
  unfold inclusion? at included
  dsimp only at included
  split at included
  · cases included
  · next outside =>
    split at included
    · next path dirs env read =>
      have unchanged := (Directive.of_read_inclusion (congrArg Prod.fst read)).2
      rw [read] at unchanged
      cases unchanged
      cases included
      exact ⟨eq_false_of_ne_true outside, read, rfl⟩
    · cases included

theorem line_of_inclusion? {path : Text} {next : Session}
    (included : s.inclusion? fs raw = some (path, next))
    (compile : Text → Session → Progress) : s.line fs compile raw = compile path next := by
  obtain ⟨outside, read, rfl⟩ := of_inclusion? included
  unfold line
  rw [outside, if_neg Bool.false_ne_true, read]

theorem line_of_not_inclusion? (alone : s.inclusion? fs raw = none)
    (compile : Text → Session → Progress) :
    s.line fs compile raw = (s.ownLine fs raw, none) := by
  unfold inclusion? at alone
  unfold ownLine line
  dsimp only at alone ⊢
  split
  · rfl
  · next opened =>
    rw [if_neg opened] at alone
    split at alone
    · cases alone
    · next o =>
      -- every directive but an inclusion leaves the compilation of files alone
      rcases read : read fs (trim (expandTabs
        s.env.nextLine.config.tabWidth raw)) s.directives s.env.nextLine
        with ⟨directive, dirs, env⟩
      cases directive with
      | inclusion path => exact (o path dirs env read).elim
      | none | consumed | pass text | embeddedStart language | embeddedEnd language => rfl

end Line

section Constructs

variable {p : Session × Text → Prop} {constructs : List Construct}

variable (each : ∀ con ∈ constructs, ∀ (s : Session) (line : Text),
    p (s, line) → p ((s.look con line).1, (s.look con line).2.1))
  (pre : p (s, line))

include each pre

theorem lookForFirst_keeps :
    p ((lookForFirst constructs s line).1, (lookForFirst constructs s line).2.1) := by
  induction constructs generalizing s line with
  | nil => exact pre
  | cons con r ih =>
    have first := each con mem_cons_self s line pre
    unfold lookForFirst
    split
    · next next changed hit =>
      rw [hit] at first
      exact first
    · next next changed hit =>
      rw [hit] at first
      exact ih ((forall_mem_cons.mp each).2) first

theorem lookForAll_keeps : p (lookForAll constructs s line) :=
  foldlRecOn (motive := p) constructs _ pre fun done held con mem => each con mem done.1 done.2 held

end Constructs

section Continuation

variable (s : Session)

/-- What directives have left behind, and whether a comment of several lines is open. -/
def frame : DirectiveState × Bool :=
  (s.directives, s.inComment)

/-- What looking for constructs and following block words leave as it is. -/
def outside : (DirectiveState × Bool) × List Location × List Text :=
  (s.frame, s.env.sources, s.lines)

theorem outside_look (con : Construct) (line : Text) :
    (s.look con line).1.outside = s.outside := by
  have kept := (con.amends_apply s.memory s.env line).sources
  unfold look
  dsimp only
  split <;> exact congrArg (fun sources => (s.frame, sources, s.lines)) kept

theorem outside_lookForFirst (constructs : List Construct) (line : Text) :
    (lookForFirst constructs s line).1.outside = s.outside :=
  lookForFirst_keeps (p := fun done => done.1.outside = s.outside)
    (fun con _ s line pre => (s.outside_look con line).trans pre) rfl

theorem outside_lookForAll (constructs : List Construct) (line : Text) :
    (lookForAll constructs s line).1.outside = s.outside :=
  lookForAll_keeps (p := fun done => done.1.outside = s.outside)
    (fun con _ s line pre => (s.outside_look con line).trans pre) rfl

theorem outside_followBlocks (line : Text) :
    (s.followBlocks line).outside = s.outside := by
  have left (env : Environment) : env.leave.1.sources = env.sources := by
    unfold Environment.leave
    split <;> rfl
  have tokens := foldlRecOn
    (motive := fun done : Session × Bool => done.1.outside = s.outside)
    (Lexical.blockTokens line) follow (b := (s, false)) rfl fun done pre token _ => by
      unfold follow
      cases token.effect with
      | opens | divides => exact pre
      | closes =>
        exact (congrArg (fun sources => (done.1.frame, sources, done.1.lines))
          (left done.1.env)).trans pre
  unfold followBlocks
  dsimp only
  split <;> exact tokens

theorem lines_look (con : Construct) (line : Text) :
    (s.look con line).1.lines = s.lines :=
  congrArg (·.2.2) (s.outside_look con line)

theorem lines_lookForFirst (constructs : List Construct) (line : Text) :
    (lookForFirst constructs s line).1.lines = s.lines :=
  congrArg (·.2.2) (s.outside_lookForFirst constructs line)

theorem lines_lookForAll (constructs : List Construct) (line : Text) :
    (lookForAll constructs s line).1.lines = s.lines :=
  congrArg (·.2.2) (s.outside_lookForAll constructs line)

theorem lines_followBlocks (line : Text) : (s.followBlocks line).lines = s.lines :=
  congrArg (·.2.2) (s.outside_followBlocks line)

/-- What lines of code leave of a session: they add to what was generated, take nothing back, and
have no part in directives, comments and sources. -/
structure Continues (s after : Session) : Prop where
  frame : after.frame = s.frame
  sources : after.env.sources = s.env.sources
  lines : s.lines <+: after.lines

variable {s} {after last : Session}

theorem Continues.of_outside (eq : after.outside = s.outside) : s.Continues after :=
  ⟨congrArg (·.1) eq, congrArg (·.2.1) eq,
    (congrArg (·.2.2) eq : after.lines = s.lines) ▸ prefix_rfl⟩

theorem Continues.trans (first : s.Continues after) (second : after.Continues last) :
    s.Continues last :=
  ⟨second.frame.trans first.frame, second.sources.trans first.sources,
    first.lines.trans second.lines⟩

theorem Continues.emit (continues : s.Continues after) (line : Text) :
    s.Continues (after.emit line) :=
  ⟨continues.frame, continues.sources, continues.lines.trans (prefix_append _ _)⟩

variable (s)

theorem continues_refl : s.Continues s :=
  .of_outside rfl

theorem continues_finishLine (st : Lexical.Store) (comment : Option Text)
    (line : Text) : s.Continues (s.finishLine st comment line) := by
  have lowered := s.outside_lookForAll lowerings line
  unfold finishLine
  generalize lookForAll lowerings s line = done at lowered ⊢
  obtain ⟨after, line⟩ := done
  obtain ⟨frame, sources, ls⟩ :=
    Continues.of_outside ((after.outside_followBlocks line).trans lowered)
  exact ⟨frame, sources, ls.trans (prefix_append _ _)⟩

theorem continues_resolveLine (comment : Option Text) (line : Text) :
    s.Continues (s.resolveLine comment line) := by
  unfold resolveLine
  dsimp only
  generalize made : lookForFirst resolvedDeclarations _ _ = done
  have looked : s.Continues done.1 := by
    rw [← made]
    exact .of_outside (outside_lookForFirst _ _ _)
  split
  · exact looked
  · exact looked.trans (continues_finishLine _ _ _ _)

theorem continues_code (line : Text) :
    s.Continues (s.code line) := by
  unfold code
  dsimp only
  generalize made : look { s with env := (s.env.resolveRules line).2 } .stash _ = done
  have stashed : s.Continues done.1 := by
    rw [← made]
    exact .of_outside (outside_look _ _ _)
  split
  · split
    · exact stashed.emit _
    · exact stashed
  · have declared := stashed.trans (.of_outside (outside_lookForFirst done.1 plainDeclarations
      (trim (Lexical.splitComment done.2.1).1)))
    split
    · exact declared
    · exact declared.trans (continues_resolveLine _ _ _)

theorem continues_plainLine (raw line : Text) :
    s.Continues { s.plainLine raw line with inComment := s.inComment } ∧
      (dropLead? line "/*".toList = none →
        (s.plainLine raw line).inComment = s.inComment) := by
  have here := continues_refl s
  have eq {p : Prop} {isOpen : Bool} : p → isOpen = isOpen := fun _ => rfl
  unfold plainLine
  split
  · split
    · exact ⟨here, eq⟩
    · exact ⟨here.emit _, eq⟩
  · split
    · exact ⟨here, eq⟩
    · split
      · next comment => exact ⟨here, fun missed => by rw [missed] at comment; cases comment⟩
      · split
        · split
          · exact ⟨here, eq⟩
          · exact ⟨here.emit _, eq⟩
        · split
          · exact ⟨here.emit _, eq⟩
          · split
            · next read =>
              obtain ⟨next, -, rfl⟩ := Option.map_eq_some_iff.mp read
              exact ⟨.of_outside rfl, eq⟩
            · have continues := continues_code s line
              exact ⟨⟨congrArg (·.1, s.inComment) continues.frame, continues.sources,
                continues.lines⟩, fun _ => congrArg Prod.snd continues.frame⟩

theorem directives_plainLine (raw line : Text) :
    (s.plainLine raw line).directives = s.directives :=
  congrArg Prod.fst (s.continues_plainLine raw line).1.frame

theorem frame_plainLine (raw : Text)
    (uncommented : dropLead? line "/*".toList = none) :
    (s.plainLine raw line).frame = s.frame :=
  Prod.ext (s.directives_plainLine raw line)
    ((s.continues_plainLine raw line).2 uncommented)

theorem continues_ownLine (fs : FileSystem) (raw : Text) :
    (s.ownLine fs raw).env.sources = s.env.nextLine.sources ∧
      s.lines <+: (s.ownLine fs raw).lines := by
  unfold ownLine line
  dsimp only
  split
  · exact ⟨rfl, prefix_refl _⟩
  · have kept := (Directive.amends_read fs (trim (expandTabs
      s.env.nextLine.config.tabWidth raw)) s.directives s.env.nextLine).sources
    generalize read fs _ s.directives s.env.nextLine = done at kept
    obtain ⟨directive, dirs, env⟩ := done
    cases directive with
    | none =>
      have continues := (continues_plainLine { s with directives := dirs, env := env }
        raw (trim (expandTabs s.env.nextLine.config.tabWidth raw))).1
      exact ⟨continues.sources.trans kept, continues.lines⟩
    | consumed | inclusion path => exact ⟨kept, prefix_refl _⟩
    | pass text => exact ⟨kept, prefix_append _ _⟩
    | embeddedStart language | embeddedEnd language =>
      dsimp only
      split
      · exact ⟨kept, prefix_refl _⟩
      · exact ⟨kept, prefix_append _ _⟩

end Continuation

end Session

/-- A moment of a compilation: the lines ahead in each source that is being read, the innermost
source first, and the session. -/
structure Reading where
  ahead : List (List Text)
  session : Session

namespace Reading

/-- The next moment, if there is one: none follows the end of the outermost source, and none follows
a line that includes a file that cannot be read or is being read already. -/
def next? (files : FileSystem) : Reading → Option Reading
  | ⟨[], _⟩ => none
  | ⟨[[]], _⟩ => none
  | ⟨[] :: source :: outer, s⟩ =>
    some ⟨source :: outer, { s with env := s.env.popSource }⟩
  | ⟨(raw :: rest) :: outer, s⟩ =>
    match s.inclusion? files raw with
    | none => some ⟨rest :: outer, s.ownLine files raw⟩
    | some (path, next) =>
      if next.env.isReading files path then none
      else match files.readText path with
        | .error _ => none
        | .ok text => some ⟨lines text :: rest :: outer,
            { next with env := next.env.pushSource path }⟩

inductive Step (files : FileSystem) : Reading → Reading → Prop where
  | leave (source : List Text) (outer : List (List Text)) (s : Session) :
      Step files ⟨[] :: source :: outer, s⟩
        ⟨source :: outer, { s with env := s.env.popSource }⟩
  | own {raw : Text} {s : Session} (rest : List Text) (outer : List (List Text))
      (alone : s.inclusion? files raw = none) :
      Step files ⟨(raw :: rest) :: outer, s⟩ ⟨rest :: outer, s.ownLine files raw⟩
  | enter {raw path text : Text} {s next : Session} (rest : List Text)
      (outer : List (List Text)) (included : s.inclusion? files raw = some (path, next))
      (free : next.env.isReading files path = false) (read : files.readText path = .ok text) :
      Step files ⟨(raw :: rest) :: outer, s⟩
        ⟨lines text :: rest :: outer, { next with env := next.env.pushSource path }⟩

variable {now after : Reading}

theorem Step.next?_eq (step : Step fs now after) : now.next? fs = some after := by
  cases step with
  | leave => rfl
  | own r outer alone => simp only [next?, alone]
  | enter r outer included free read =>
    simp only [next?, included, free, read]
    rfl

theorem step_of_next? (next : now.next? fs = some after) : Step fs now after := by
  unfold next? at next
  split at next
  · cases next
  · cases next
  · cases next
    exact .leave ..
  · split at next
    · next alone =>
      cases next
      exact .own _ _ alone
    · next included =>
      split at next
      · cases next
      · next free =>
        split at next
        · cases next
        · next read =>
          cases next
          exact .enter _ _ included (eq_false_of_ne_true free) read

theorem Step.forall_ahead {p : Text → Prop} (step : Step fs now after)
    (all : ∀ source ∈ now.ahead, ∀ line ∈ source, p line)
    (texts : ∀ path text, fs.readText path = .ok text → ∀ line ∈ lines text, p line) :
    ∀ source ∈ after.ahead, ∀ line ∈ source, p line := by
  cases step with
  | leave => exact (forall_mem_cons.mp all).2
  | own =>
    obtain ⟨first, others⟩ := forall_mem_cons.mp all
    exact forall_mem_cons.mpr ⟨(forall_mem_cons.mp first).2, others⟩
  | enter r outer included free read =>
    obtain ⟨first, others⟩ := forall_mem_cons.mp all
    exact forall_mem_cons.mpr
      ⟨texts _ _ read, forall_mem_cons.mpr ⟨(forall_mem_cons.mp first).2, others⟩⟩

def Reaches (files : FileSystem) : Reading → Reading → Prop :=
  Relation.ReflTransGen fun now after => now.next? files = some after

/-- A line without an error leads through the moments of the machine, if the files that it includes
do. -/
theorem reaches_of_line {fuel : Nat}
    (nested : ∀ inner < fuel, ∀ (lines : List Text) (outer : List (List Text))
      (s fin : Session),
      allLines fs (includeWithin fs inner) lines s = (fin, none) →
        Reaches fs ⟨lines :: outer, s⟩ ⟨[] :: outer, fin⟩)
    {raw : Text} {r : List Text} {outer : List (List Text)} {after : Session}
    (line : s.line fs (includeWithin fs fuel) raw = (after, none)) :
    Reaches fs ⟨(raw :: r) :: outer, s⟩ ⟨r :: outer, after⟩ := by
  cases included : s.inclusion? fs raw with
  | none =>
    rw [line_of_not_inclusion? included] at line
    cases line
    exact .single (Step.own r outer included).next?_eq
  | some entered =>
    rw [line_of_inclusion? included, includeWithin] at line
    split at line
    · cases line
    · next free =>
      unfold fileFrom at line
      split at line
      · cases line
      · next text read =>
        cases fuel with
        | zero => cases line
        | succ fuel =>
          simp only [source, Prod.mk.injEq] at line
          obtain ⟨rfl, error⟩ := line
          have inner := nested fuel (Nat.lt_succ_self fuel) (lines text)
            (r :: outer) _ _ (Prod.ext rfl error)
          exact .head (Step.enter r outer included (eq_false_of_ne_true free) read).next?_eq
            (inner.tail rfl)

theorem reaches_of_allLines (fs : FileSystem) (fuel : Nat) (ls : List Text)
    (outer : List (List Text)) (s fin : Session)
    (run : allLines fs (includeWithin fs fuel) ls s = (fin, none)) :
    Reaches fs ⟨ls :: outer, s⟩ ⟨[] :: outer, fin⟩ := by
  -- the files included by a line are nested less deeply, the lines after it are fewer
  induction fuel using Nat.strongRecOn generalizing ls outer s fin with
  | ind fuel ihFuel =>
    induction ls generalizing s with
    | nil =>
      cases run
      exact .refl
    | cons raw r ihLines =>
      unfold allLines at run
      split at run
      · cases run
      · next after line => exact (reaches_of_line ihFuel line).trans (ihLines after run)

/-- From one moment there is one way on, so every moment lies before the last one. -/
theorem Reaches.before_last {start middle last : Reading} (reaches : Reaches fs start middle)
    (finishes : Reaches fs start last) (ends : last.next? fs = none) : Reaches fs middle last := by
  have unique : Relator.RightUnique fun now after : Reading => now.next? fs = some after := by
    intro now after o first second
    exact Option.some.inj (first.symm.trans second)
  rcases Relation.ReflTransGen.total_of_right_unique unique reaches finishes with on | back
  · exact on
  · cases back.cases_head with
    | inl eq => exact eq ▸ .refl
    | inr further =>
      obtain ⟨after, step, -⟩ := further
      rw [ends] at step
      cases step

theorem lines_prefix_of_next? (step : now.next? fs = some after) :
    now.session.lines <+: after.session.lines := by
  cases step_of_next? step with
  | leave => exact prefix_refl _
  | own => exact (continues_ownLine _ _ _).2
  | enter r outer included free read =>
    obtain ⟨-, -, rfl⟩ := of_inclusion? included
    exact prefix_refl _

theorem Reaches.lines_prefix (reaches : Reaches fs now after) :
    now.session.lines <+: after.session.lines := by
  induction reaches with
  | refl => exact prefix_refl _
  | tail _ step ih => exact ih.trans (lines_prefix_of_next? step)

/-- Whether a test succeeds at a moment and at all that follow it, if these are fewer than a
number. -/
def always (files : FileSystem) (test : Reading → Bool) : Nat → Reading → Bool
  | 0, _ => false
  | n + 1, now => test now && (now.next? files).all (always files test n)

theorem of_always {test : Reading → Bool} {n : Nat} {later : Reading}
    (all : always fs test n now) (reaches : Reaches fs now later) : test later := by
  induction n generalizing now with
  | zero => cases all
  | succ n ih =>
    obtain ⟨here, further⟩ := Bool.and_eq_true_iff.mp all
    rcases reaches.cases_head with rfl | ⟨after, step, r⟩
    · exact here
    · rw [step] at further
      exact ih further r

def begin (config : Config) (source : Text) : Reading :=
  ⟨[lines source],
    { start config with env := (start config).env.pushSource [] }⟩

end Reading

variable {hc : Compiled}

theorem Progress.of_finish {progress : Progress} (finished : progress.finish = .ok hc) :
    hasAbort progress.1.env.diagnostics = false ∧ progress.2 = none ∧ hc = progress.1.finish := by
  obtain ⟨s, error⟩ := progress
  unfold finish at finished
  split at finished
  · cases finished
  · next unbroken =>
    cases error with
    | some error => cases finished
    | none =>
      cases finished
      exact ⟨by simpa using unbroken, rfl, rfl⟩

/-- A compilation that comes to an end goes from the first moment to the last, and comes to what the
session it ends with comes to. -/
theorem exists_final_of_compileTextWith {cfg : Config} {source : Text}
    (compiles : compileTextWith cfg fs source = .ok hc) :
    ∃ fin, Reading.Reaches fs (.begin cfg source) ⟨[[]], fin⟩ ∧
      hc = finish { fin with env := fin.env.popSource } := by
  have run (s : Session) (result : Compiled)
      (finished : Progress.finish (s.text fs source) = .ok result) :
      ∃ fin, Reading.Reaches fs ⟨[lines source], { s with env := s.env.pushSource [] }⟩
          ⟨[[]], fin⟩ ∧ result = finish { fin with env := fin.env.popSource } := by
    rw [text, Session.source] at finished
    rcases reached : allLines fs (inclusion fs) (lines source)
      { s with env := s.env.pushSource [] } with ⟨fin, error⟩
    rw [reached] at finished
    obtain ⟨-, rfl, rfl⟩ := Progress.of_finish finished
    exact ⟨fin, Reading.reaches_of_allLines fs (fs.entries.length + 1) _ [] _ _ reached, rfl⟩
  exact run _ _ compiles

theorem reaches_of_compileTextWith {cfg : Config} {source : Text}
    (compiles : compileTextWith cfg fs source = .ok hc) :
    ∃ fin, Reading.Reaches fs (.begin cfg source) ⟨[[]], fin⟩ ∧ hc.text = fin.program := by
  obtain ⟨fin, reaches, rfl⟩ := exists_final_of_compileTextWith compiles
  exact ⟨fin, reaches, rfl⟩

end PrimePlus
