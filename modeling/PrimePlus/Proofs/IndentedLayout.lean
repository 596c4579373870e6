import PrimePlus.Proofs.BlockBalance
import PrimePlus.Proofs.SessionSeams

/-!
The layout of a program follows its blocks (`statements_indented_by_balance`).
-/

namespace PrimePlus

open List Lexical.Nesting Environment.Keeps

open Lexical
open Environment (leave note report)
open Text (trim)

/-- A line of a generated program: a statement that was laid out, with the literals that are missing
in it and with what is put behind it, or another line. -/
inductive Entry where
  | verbatim (line : Text)
  | statement (store : Store) (text remark : Text)

namespace Entry

def words : Entry → List BlockWord
  | .verbatim _ => []
  | .statement _ text _ => effects text

def level (depth : Int) (statement : Text) : Nat :=
  if isOutdented statement then depth.toNat - 1 else depth.toNat

def line (width : Nat) (depth : Int) : Entry → Text
  | .verbatim line => line
  | .statement store text remark =>
    Layout.indent width (level depth text) ++ restore store text ++ remark

/-- The lines for entries. The blocks open in front of an entry are those that were open before and
those that more words in front of it open than close. -/
def render (width : Nat) : Int → List Entry → List Text
  | _, [] => []
  | depth, entry :: rest =>
    entry.line width depth :: render width (depth + balance entry.words) rest

theorem render_append (wd : Nat) (d : Int) (left right : List Entry) :
    render wd d (left ++ right) =
      render wd d left ++ render wd (d + balance (left.flatMap words)) right := by
  induction left generalizing d with
  | nil => simp [render]
  | cons e left ih =>
    rw [cons_append, render, ih, flatMap_cons, balance_append, Int.add_assoc]
    rfl

theorem render_map_verbatim (wd : Nat) (d : Int) (lines : List Text) :
    render wd d (lines.map .verbatim) = lines := by
  induction lines generalizing d with
  | nil => rfl
  | cons first r ih =>
    rw [map_cons, render, ih]
    rfl

theorem words_map_verbatim (ls : List Text) : (ls.map verbatim).flatMap words = [] := by
  induction ls with
  | nil => rfl
  | cons first r ih => exact ih

/-- The entries for statements of one line, the comment behind the last of them. -/
def ofStatements (store : Store) (comment : Option Text) : List Text → List Entry
  | [] => []
  | [last] => [.statement store last ((comment.map fun comment => ' ' :: comment).getD [])]
  | text :: rest => .statement store text [] :: ofStatements store comment rest

theorem words_ofStatements (st : Store) (comment : Option Text) (stmts : List Text) :
    (ofStatements st comment stmts).flatMap words = stmts.flatMap effects := by
  induction stmts with
  | nil => rfl
  | cons text r ih =>
    cases r with
    | nil => rfl
    | cons next r =>
      rw [ofStatements, flatMap_cons, ih]
      · rfl
      · simp

end Entry

namespace Layout

open Unicode (isBlank)

theorem not_isBlank_head_statements {line stmt : Text} (mem : stmt ∈ statements line) :
    ∀ c ∈ stmt.head?, isBlank c = false := by
  obtain ⟨row, -, among⟩ := mem_flatMap.mp mem
  obtain ⟨part, -, shown, shape⟩ := mem_statementsOfParts among
  obtain ⟨c, hi, o⟩ := all_eq_false.mp shown
  have hit : (part.find? fun c => !isBlank c).isSome := find?_isSome.mpr ⟨c, hi, by simpa using o⟩
  obtain ⟨first, first'⟩ := Option.isSome_iff_exists.mp hit
  have head : stmt.head? = some first := by
    rcases shape with rfl | rfl <;> simp [Text.head?_trim, first']
  simpa [head] using find?_some first'

theorem restore_indent_append (st : Store) (wd level : Nat) (t : Text) :
    restore st (indent wd level ++ t) = indent wd level ++ restore st t := by
  apply restore_append_of_quoteFree
  intro quote
  cases eq_of_mem_replicate quote

theorem withComment_linesFrom {width d after : Nat} {st : Store}
    {comment : Option Text} {list : List Text}
    (hs : ∀ statement ∈ list, ∀ c ∈ statement.head?, isBlank c = false)
    (walked : walk d (list.flatMap effects) = some after) :
    withComment comment ((linesFrom width d list).map (restore st)) =
      Entry.render width d (Entry.ofStatements st comment list) := by
  induction list generalizing d with
  | nil => rfl
  | cons statement r ih =>
    have level : (ofLine statement).indentLevel d = Entry.level d statement := by
      rw [indentLevel_eq (hs statement mem_cons_self), Entry.level, Int.toNat_natCast]
    rw [flatMap_cons, walk_append, Option.bind_eq_some_iff] at walked
    obtain ⟨next, first, others⟩ := walked
    have deeper : ((next : Nat) : Int) = d + balance (effects statement) := walk_eq_balance first
    have later := ih ((forall_mem_cons.mp hs).2) others
    rw [linesFrom, depthAfter_eq first, level, map_cons, restore_indent_append]
    cases r with
    | nil => rfl
    | cons second r =>
      -- the comment goes to the last line, so it is enough to know that there is another one
      obtain ⟨line, lines, shape⟩ : ∃ line lines, (linesFrom width next (second :: r)).map
          (restore st) = line :: lines := ⟨_, _, rfl⟩
      rw [shape] at later ⊢
      have first' : Entry.ofStatements st comment (statement :: second :: r) =
          .statement st statement [] :: Entry.ofStatements st comment (second :: r) := rfl
      rw [withComment, later, first', Entry.render, Entry.line, append_nil, Entry.words, deeper]
      simp

end Layout

namespace Environment

variable {env after : Environment}

def IsOrderly (env : Environment) : Prop :=
  ∀ diagnostic ∈ env.diagnostics, diagnostic.message ≠ "unexpected END".toList

theorem IsOrderly.of_prefix (orderly : after.IsOrderly)
    (earlier : env.diagnostics <+: after.diagnostics) : env.IsOrderly :=
  fun diagnostic mem => orderly diagnostic (earlier.mem mem)

theorem Keeps.resolveAliases (env : Environment) (t : Text) : env.Keeps (env.resolveAliases t).2 :=
  (Amends.note env _).toKeeps

theorem Keeps.resolveRules (env : Environment) (t : Text) : env.Keeps (env.resolveRules t).2 :=
  (Amends.note env _).toKeeps

theorem Keeps.foldInline (env : Environment) (t : Text) : env.Keeps (env.foldInline t).2 :=
  (Amends.note env _).toKeeps

theorem Keeps.readRule? {line : Text} (read : env.readRule? line = some after) :
    env.Keeps after := by
  obtain ⟨next, -, rfl⟩ := Option.map_eq_some_iff.mp read
  exact ⟨rfl, rfl, prefix_append _ _⟩

end Environment

namespace Session

open Environment (Keeps)

section Keeps

variable (s : Session)

theorem keeps_look (con : Construct) (line : Text) :
    s.env.Keeps (s.look con line).1.env := by
  have kept := (Construct.amends_apply con s.memory s.env line).toKeeps
  unfold look
  dsimp only
  split <;> exact kept

theorem keeps_lookForFirst (constructs : List Construct) (line : Text) :
    s.env.Keeps (lookForFirst constructs s line).1.env :=
  lookForFirst_keeps (p := fun done => s.env.Keeps done.1.env)
    (fun con _ next line pre => pre.trans (next.keeps_look con line)) (.refl _)

theorem keeps_lookForAll (constructs : List Construct) (line : Text) :
    s.env.Keeps (lookForAll constructs s line).1.env :=
  lookForAll_keeps (p := fun done => s.env.Keeps done.1.env)
    (fun con _ next line pre => pre.trans (next.keeps_look con line)) (.refl _)

end Keeps

section Blocks

/-- A block word leaves the settings and takes no report back; where it closes no block too many, it
is a step of the walk. -/
theorem walk_foldl_follow (tokens : List BlockToken) (s : Session) (x : Bool) :
    let after := (tokens.foldl follow (s, x)).1
    after.env.config = s.env.config ∧ s.env.diagnostics <+: after.env.diagnostics ∧
      (after.env.IsOrderly →
        walk s.env.depth (tokens.map BlockToken.effect) = some after.env.depth) := by
  induction tokens generalizing s x with
  | nil => exact ⟨rfl, prefix_refl _, fun _ => rfl⟩
  | cons token r ih =>
    rw [foldl_cons, map_cons]
    cases effect : token.effect with
    | opens =>
      have step : follow (s, x) token =
          ({ s with env := s.env.enter }, x) := by simp only [follow, effect]
      rw [step]
      exact ih _ _
    | divides =>
      have step : follow (s, x) token = (s, x) := by simp only [follow, effect]
      rw [step]
      exact ih _ _
    | closes =>
      have step : follow (s, x) token = ({ s with env := s.env.leave.1 },
          x || (s.env.leave.2 && s.env.leave.1.depth == 0)) := by
        simp only [follow, effect]
      rw [step]
      obtain ⟨cfg, reports, walked⟩ := ih { s with env := s.env.leave.1 }
        (x || (s.env.leave.2 && s.env.leave.1.depth == 0))
      generalize (r.foldl follow _).1 = after at cfg reports walked ⊢
      cases d : s.env.depth with
      | zero =>
        have left : s.env.leave.1 = s.env.report .error "unexpected END".toList := by
          rw [leave, d]
        rw [left] at cfg reports
        refine ⟨cfg, (prefix_append _ _).trans reports, fun orderly => ?_⟩
        exact absurd rfl (orderly _ (reports.mem (mem_append_right _ mem_cons_self)))
      | succ inner =>
        have left : s.env.leave.1 = { s.env with
            depth := inner
            aliases := s.env.aliases.purge inner
            rules := s.env.rules.purge inner } := by
          rw [leave, d]
        rw [left] at cfg reports walked
        exact ⟨cfg, reports, walked⟩

theorem walk_followBlocks (s : Session) (line : Text) :
    (s.followBlocks line).env.config = s.env.config ∧
      s.env.diagnostics <+: (s.followBlocks line).env.diagnostics ∧
      ((s.followBlocks line).env.IsOrderly →
        walk s.env.depth (effects line) = some (s.followBlocks line).env.depth) := by
  have walked := walk_foldl_follow (blockTokens line) s false
  unfold followBlocks
  dsimp only
  split <;> exact walked

end Blocks

/-- A line whose names are replaced, as it is handed over to be lowered and laid out. -/
structure Handed where
  session : Session
  store : Store
  comment : Option Text
  line : Text

namespace Handed

def finish (handed : Handed) : Session :=
  handed.session.finishLine handed.store handed.comment handed.line

def entries (handed : Handed) : List Entry :=
  Entry.ofStatements handed.store handed.comment
    (Layout.statements (lookForAll lowerings handed.session handed.line).2)

theorem finish_spec (handed : Handed) :
    handed.finish.env.config = handed.session.env.config ∧
      handed.session.env.diagnostics <+: handed.finish.env.diagnostics ∧
      (handed.finish.env.IsOrderly →
        handed.finish.lines = handed.session.lines ++ Entry.render
            handed.session.env.config.indentWidth handed.session.env.depth handed.entries ∧
          (handed.finish.env.depth : Int) =
            handed.session.env.depth + balance (handed.entries.flatMap Entry.words)) := by
  obtain ⟨s, st, comment, line⟩ := handed
  have lowered := s.keeps_lookForAll lowerings line
  have ls := s.lines_lookForAll lowerings line
  unfold finish entries finishLine
  generalize lookForAll lowerings s line = done at lowered ls ⊢
  obtain ⟨next, line⟩ := done
  obtain ⟨cfg, reports, walked⟩ := next.walk_followBlocks line
  refine ⟨cfg.trans lowered.config, lowered.diagnostics.trans reports, fun orderly => ?_⟩
  -- both counts of the open blocks start from the words of the lowered line
  have walked := walked orderly
  have counted := walk_eq_balance walked
  rw [← Layout.effects_statements] at walked counted
  dsimp only
  rw [lines_followBlocks, ls, Layout.lay, Entry.words_ofStatements,
    Layout.withComment_linesFrom (fun _ => Layout.not_isBlank_head_statements) walked,
    lowered.config, lowered.depth]
  rw [lowered.depth] at counted
  exact ⟨rfl, counted⟩

end Handed

/-- How a session goes on to another: something is passed on, with the blocks and the generated
lines of the session, and finished; or nothing is, and the open blocks stay. -/
inductive Passes {α : Type} (s : Session) (start finish : α → Session) :
    Option α → Session → Prop
  | nothing {after : Session} (kept : s.env.Keeps after.env) :
      Passes s start finish none after
  | given {a : α} (kept : s.env.Keeps (start a).env)
      (same : (start a).lines = s.lines) : Passes s start finish (some a) (finish a)

namespace Passes

variable {α β : Type} {s next after : Session} {start finish : α → Session} {given : Option α}

theorem after_keeps (passes : next.Passes start finish given after)
    (kept : s.env.Keeps next.env) (eq : next.lines = s.lines) :
    s.Passes start finish given after := by
  cases passes with
  | nothing further => exact .nothing (kept.trans further)
  | given further ls => exact .given (kept.trans further) (ls.trans eq)

theorem bind (passes : s.Passes start finish given after) {start' finish' : β → Session}
    {step : α → Option β} (further : ∀ a, (start a).Passes start' finish' (step a) (finish a)) :
    s.Passes start' finish' (given.bind step) after := by
  cases passes with
  | nothing kept => exact .nothing kept
  | given kept eq => exact (further _).after_keeps kept eq

end Passes

section Ready

variable (s : Session) (comment : Option Text) (line : Text)

/-- A line of code without its comment with its names replaced, unless it was a declaration of which
nothing is left. -/
def ready? : Option Handed :=
  let (masked, store) := protect [] line
  let (line, env) := s.env.resolveAliases (collapseBlanks masked)
  let (line, env) := env.foldInline line
  let (line, store) := protect store line
  let (s, line, found) := lookForFirst resolvedDeclarations { s with env := env } line
  if found && Text.isBlankText line then none else some ⟨s, store, comment, line⟩

theorem passes_ready? :
    s.Passes Handed.session Handed.finish (s.ready? comment line)
      (s.resolveLine comment line) := by
  unfold ready? resolveLine
  dsimp only
  generalize made : lookForFirst resolvedDeclarations _ _ = done
  have kept : s.env.Keeps done.1.env := by
    rw [← made]
    refine Keeps.trans ?_ (keeps_lookForFirst _ _ _)
    exact (resolveAliases _ _).trans (foldInline _ _)
  have eq : done.1.lines = s.lines := by
    rw [← made]
    exact lines_lookForFirst _ _ _
  split
  · exact .nothing kept
  · exact @Passes.given _ s Handed.session Handed.finish _ kept eq

def remark : Option Text :=
  let (line, env) := s.env.resolveRules line
  (splitComment ({ s with env := env }.look .stash line).2.1).2

theorem passes_codeIn? :
    s.Passes Prod.fst (fun next => next.1.resolveLine (s.remark line) next.2)
      (s.codeIn? line) (s.code line) := by
  unfold codeIn? code remark
  dsimp only
  generalize made : look { s with env := (s.env.resolveRules line).2 } .stash _ = done
  have kept : s.env.Keeps done.1.env := by
    rw [← made]
    refine Keeps.trans ?_ (keeps_look _ _ _)
    exact resolveRules s.env line
  have eq : done.1.lines = s.lines := by
    rw [← made]
    exact lines_look _ _ _
  obtain ⟨next, line, hit⟩ := done
  split
  · apply Passes.nothing
    split <;> exact kept
  · have kept' := kept.trans (next.keeps_lookForFirst plainDeclarations
      (trim (splitComment line).1))
    have same' := (next.lines_lookForFirst plainDeclarations (trim (splitComment line).1)).trans eq
    generalize lookForFirst plainDeclarations next (trim (splitComment line).1) = done
      at kept' same' ⊢
    split
    · exact .nothing kept'
    · exact @Passes.given _ _ Prod.fst (fun next => next.1.resolveLine _ next.2) _ kept' same'

theorem passes_plainCode? (raw : Text) :
    s.Passes Prod.fst (fun next => next.1.resolveLine (s.remark line) next.2)
      (s.plainCode? line) (s.plainLine raw line) := by
  unfold plainCode? plainLine
  cases s.directives.language?.isSome with
  | true =>
    simp only [Bool.true_or, if_true]
    apply Passes.nothing
    split <;> exact .refl _
  | false =>
    cases s.directives.isSkipping with
    | true =>
      exact .nothing (.refl _)
    | false =>
      simp only [Bool.false_eq_true, if_false]
      cases Text.dropLead? line "/*".toList with
      | some r => exact .nothing (.refl _)
      | none =>
        cases line.isEmpty with
        | true =>
          simp only [if_true]
          apply Passes.nothing
          split <;> exact .refl _
        | false =>
          cases Text.startsWith line "//".toList with
          | true =>
            exact .nothing (.refl _)
          | false =>
            cases read : s.env.readRule? line with
            | some env => exact .nothing (.readRule? read)
            | none => exact s.passes_codeIn? line

end Ready

def handed? (files : FileSystem) (raw : Text) (s : Session) : Option Handed :=
  (s.code? files raw).bind fun next =>
    next.1.ready? (remark { s with env := s.env.nextLine }
      (trim (expandTabs s.env.config.tabWidth raw))) next.2

theorem passes_code? (fs : FileSystem) (raw : Text) (s : Session) :
    s.Passes Prod.fst
      (fun next => next.1.resolveLine (remark { s with env := s.env.nextLine }
        (trim (expandTabs s.env.config.tabWidth raw))) next.2)
      (s.code? fs raw) (s.ownLine fs raw) := by
  have counted := nextLine s.env
  unfold code? ownLine line
  dsimp only
  rw [Environment.config_nextLine]
  generalize s.env.nextLine = env at counted
  generalize trim (expandTabs s.env.config.tabWidth raw) = trimmed
  split
  · exact .nothing counted
  · have amends := (Directive.amends_read fs trimmed s.directives env).toKeeps
    have idle (hb : (Directive.read fs trimmed s.directives env).1 = .none) :=
      Directive.eq_of_read_none hb
    generalize Directive.read fs trimmed s.directives env = done at amends idle
    obtain ⟨directive, dirs, env'⟩ := done
    cases directive with
    | none =>
      cases idle rfl
      exact (passes_plainCode? { s with env := env } trimmed raw).after_keeps counted rfl
    | consumed | inclusion p | pass text =>
      exact .nothing (counted.trans amends)
    | embeddedStart language | embeddedEnd language =>
      apply Passes.nothing
      dsimp only
      split <;> exact counted.trans amends

theorem passes_handed? (fs : FileSystem) (raw : Text) (s : Session) :
    s.Passes Handed.session Handed.finish (s.handed? fs raw) (s.ownLine fs raw) :=
  (s.passes_code? fs raw).bind fun next => next.1.passes_ready? _ next.2

theorem handed?_of_inclusion? {fs : FileSystem} {raw p : Text} {s next : Session}
    (included : s.inclusion? fs raw = some (p, next)) : s.handed? fs raw = none := by
  obtain ⟨outside, read, -⟩ := of_inclusion? included
  have idle : s.code? fs raw = none := by
    unfold code?
    rw [outside, if_neg Bool.false_ne_true, read]
  rw [handed?, idle]
  rfl

end Session

namespace Reading

def handed? (files : FileSystem) (now : Reading) : Option Session.Handed :=
  match now.ahead with
  | (raw :: _) :: _ => now.session.handed? files raw
  | _ => none

def entries (files : FileSystem) (now after : Reading) : List Entry :=
  match now.handed? files with
  | some handed => handed.entries
  | none => (after.session.lines.drop now.session.lines.length).map .verbatim

inductive Logs (files : FileSystem) (start : Reading) : List Entry → Reading → Prop
  | start : Logs files start [] start
  | step {log : List Entry} {now after : Reading} (logs : Logs files start log now)
      (next : now.next? files = some after) :
      Logs files start (log ++ now.entries files after) after

variable {fs : FileSystem} {start now after : Reading} {log : List Entry}

theorem Logs.reaches (logs : Logs fs start log now) : Reaches fs start now := by
  induction logs with
  | start => exact .refl
  | step _ next ih => exact ih.tail next

theorem Reaches.exists_log (reaches : Reaches fs start now) : ∃ log, Logs fs start log now := by
  induction reaches with
  | refl => exact ⟨[], .start⟩
  | tail _ next ih =>
    obtain ⟨log, logs⟩ := ih
    exact ⟨_, logs.step next⟩

/-- What happens from one moment to the next: a line is handed over to be laid out, or the open
blocks stay and lines are added. -/
theorem passes_next? (step : now.next? fs = some after) :
    now.session.Passes Session.Handed.session Session.Handed.finish (now.handed? fs)
      after.session := by
  cases step_of_next? step with
  | leave => exact .nothing (withSources _ _)
  | @own raw s r outer alone => exact s.passes_handed? fs raw
  | @enter raw p text s next r outer included free read =>
    have idle : handed? fs ⟨(raw :: r) :: outer, s⟩ = none :=
      Session.handed?_of_inclusion? included
    obtain ⟨-, -, rfl⟩ := Session.of_inclusion? included
    rw [idle]
    exact .nothing ((nextLine s.env).trans (withSources _ _))

end Reading

/-- Whether a record accounts for a session: for the lines it has generated and for the blocks that
are open. -/
structure Entry.Accounts (config : Config) (log : List Entry) (s : Session) : Prop where
  settings : s.env.config = config
  lines : s.lines = render config.indentWidth 0 log
  depth : (s.env.depth : Int) = balance (log.flatMap words)

namespace Reading

variable {fs : FileSystem} {start now after : Reading} {log : List Entry} {cfg : Config}

theorem diagnostics_prefix_of_next? (step : now.next? fs = some after) :
    now.session.env.diagnostics <+: after.session.env.diagnostics := by
  have passes := passes_next? step
  generalize now.handed? fs = given at passes
  generalize after.session = s at passes
  cases passes with
  | nothing kept => exact kept.diagnostics
  | given kept _ => exact kept.diagnostics.trans (Session.Handed.finish_spec _).2.1

theorem Reaches.diagnostics_prefix (reaches : Reaches fs now after) :
    now.session.env.diagnostics <+: after.session.env.diagnostics := by
  induction reaches with
  | refl => exact prefix_refl _
  | tail _ step ih => exact ih.trans (diagnostics_prefix_of_next? step)

theorem accounts_begin (cfg : Config) (source : Text) :
    Entry.Accounts cfg [] (begin cfg source).session := by
  -- for any session: the one that a compilation starts with is not to be computed
  have entered (s : Session) (kept : (Environment.start cfg).Keeps s.env)
      (unwritten : s.lines = []) :
      Entry.Accounts cfg [] { s with env := s.env.pushSource [] } :=
    ⟨kept.config, unwritten, congrArg Nat.cast kept.depth⟩
  exact entered _ (Session.amends_start cfg).toKeeps rfl

/-- A record that accounts for one moment accounts, with what is added to it, for the next. -/
theorem accounts_next? (accounts : Entry.Accounts cfg log now.session)
    (step : now.next? fs = some after) (orderly : after.session.env.IsOrderly) :
    Entry.Accounts cfg (log ++ now.entries fs after) after.session := by
  have lines := lines_prefix_of_next? step
  have passes := passes_next? step
  unfold entries
  generalize now.handed? fs = given at passes
  generalize after.session = s at lines orderly passes
  cases passes with
  | nothing kept =>
    -- what was not laid out opens and closes nothing
    have added := prefix_iff_eq_append.mp lines
    refine ⟨kept.config.trans accounts.settings, ?_, ?_⟩
    · rw [Entry.render_append, Entry.render_map_verbatim, ← accounts.lines, added]
    · rw [flatMap_append, Entry.words_map_verbatim, append_nil, kept.depth, accounts.depth]
  | @given handed kept eq =>
    obtain ⟨config', -, laid⟩ := handed.finish_spec
    obtain ⟨lines, d⟩ := laid orderly
    have pre : (handed.session.env.depth : Int) = balance (log.flatMap Entry.words) := by
      rw [kept.depth, accounts.depth]
    refine ⟨config'.trans (kept.config.trans accounts.settings), ?_, ?_⟩
    · rw [lines, eq, kept.config, accounts.settings, accounts.lines, pre, Entry.render_append,
        Int.zero_add]
    · rw [d, pre, flatMap_append, balance_append]

theorem Logs.accounts (logs : Logs fs start log now)
    (begins : Entry.Accounts cfg [] start.session) (orderly : now.session.env.IsOrderly) :
    Entry.Accounts cfg log now.session := by
  induction logs with
  | start => exact begins
  | step _ next ih =>
    exact accounts_next? (ih (orderly.of_prefix (diagnostics_prefix_of_next? next))) next orderly

end Reading

theorem Session.diagnostics_openBlocks (s : Session) :
    s.openBlocks.diagnostics = s.env.diagnostics ++
      ((if 0 < s.env.depth then [Text.ofNat s.env.depth ++
          " block(s) still open at end of input".toList] else []) ++
        (s.directives.language?.map fun language =>
          language.marker ++ " block without #END".toList).toList).map
        (Diagnostic.mk .warning s.env.location) := by
  unfold openBlocks
  cases s.env.depth with
  | zero => cases s.directives.language? <;> simp [report, note]
  | succ d =>
    cases s.directives.language? <;>
      simp [report, note, Environment.location]

/-- **The layout follows the blocks.** Where a compilation comes to a program and no block was
closed too often, there is a record of all lines of the program such that at every moment of the
compilation the record so far accounts for the lines and for the number of open blocks: a statement
is indented by the number of words that open a block less the number of words that close one in all
statements before it, one level less if it starts with `END`, `UNTIL` or `ELSE`, and that number is
the number of open blocks. At the end blocks are reported to be open just if it is positive. -/
theorem statements_indented_by_balance {config : Config} {files : FileSystem} {source : Text}
    {compiled : Compiled} (compiles : compileTextWith config files source = .ok compiled)
    (orderly : ∀ diagnostic ∈ compiled.diagnostics, diagnostic.message ≠ "unexpected END".toList) :
    ∃ log final, Reading.Logs files (.begin config source) log ⟨[[]], final⟩ ∧
      (∀ log' now, Reading.Logs files (.begin config source) log' now →
        now.session.lines = Entry.render config.indentWidth 0 log' ∧
          (now.session.env.depth : Int) = balance (log'.flatMap Entry.words)) ∧
      (config.pragmaPreamble = false → config.reformat = false → config.minify = false →
        compiled.text = Text.ofLines final.lines) ∧
      compiled.diagnostics = final.env.diagnostics ++
        ((if 0 < balance (log.flatMap Entry.words) then [Text.ofNat final.env.depth ++
            " block(s) still open at end of input".toList] else []) ++
          (final.directives.language?.map fun language =>
            language.marker ++ " block without #END".toList).toList).map
          (Diagnostic.mk .warning final.env.popSource.location) := by
  obtain ⟨final, reaches, rfl⟩ := exists_final_of_compileTextWith compiles
  have ended := Session.diagnostics_openBlocks { final with env := final.env.popSource }
  have orderly' : final.env.IsOrderly := by
    intro diagnostic listed
    apply orderly
    rw [Session.finish, ended]
    exact mem_append_left _ listed
  have every (log' : List Entry) (now : Reading)
      (logs : Reading.Logs files (.begin config source) log' now) :
      Entry.Accounts config log' now.session := by
    have later := logs.reaches.before_last reaches rfl
    exact logs.accounts (Reading.accounts_begin config source)
      (orderly'.of_prefix later.diagnostics_prefix)
  obtain ⟨log, logs⟩ := reaches.exists_log
  have whole := every log _ logs
  refine ⟨log, final, logs, fun log' now logs' => ?_, fun bare plain whole' => ?_, ?_⟩
  · have accounts := every log' now logs'
    exact ⟨accounts.lines, accounts.depth⟩
  · have settings : ({ final with env := final.env.popSource } : Session).env.config = config :=
      whole.settings
    rw [Session.finish, Session.program, settings, bare, plain, whole']
    rfl
  · have positive : 0 < final.env.depth ↔ 0 < balance (log.flatMap Entry.words) := by
      have depth := whole.depth
      dsimp only at depth
      omega
    rw [Session.finish, ended]
    simp only [← positive]
    rfl

/-- Several statements on a line, a block word in a literal, a comment, and a block that stays
open. -/
theorem statements_indented_by_balance_open :
    let source := "if a then x := \"END\"; y; // c\nelse z;\n".toList
    ∃ compiled log final, compileTextWith {} {} source = .ok compiled ∧
      compiled.text = "IF a THEN x := \"END\";\n  y; // c\nELSE z;\n".toList ∧
      Reading.Logs {} (.begin {} source) log ⟨[[]], final⟩ ∧
      final.lines = Entry.render 2 0 log ∧
      compiled.diagnostics.map Diagnostic.message =
        ["1 block(s) still open at end of input".toList] := by
  intro source
  have facts : (compileTextWith {} {} source).map
      (fun compiled => (compiled.text, compiled.diagnostics.map Diagnostic.message)) =
      .ok ("IF a THEN x := \"END\";\n  y; // c\nELSE z;\n".toList,
        ["1 block(s) still open at end of input".toList]) := by decide +kernel
  cases compiles : compileTextWith {} {} source with
  | error error =>
    rw [compiles] at facts
    cases facts
  | ok compiled =>
    rw [compiles] at facts
    obtain ⟨text, messages⟩ := Prod.mk.inj (Except.ok.inj facts)
    have orderly : ∀ diagnostic ∈ compiled.diagnostics,
        diagnostic.message ≠ "unexpected END".toList := by
      intro diagnostic listed
      have message := mem_map_of_mem (f := Diagnostic.message) listed
      rw [messages, mem_singleton] at message
      rw [message]
      decide
    obtain ⟨log, final, logs, accounts, -, -⟩ := statements_indented_by_balance compiles orderly
    exact ⟨compiled, log, final, rfl, text, logs, (accounts log _ logs).1, messages⟩

end PrimePlus
