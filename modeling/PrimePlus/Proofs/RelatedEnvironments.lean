import PrimePlus.Proofs.DirectiveLine
import PrimePlus.Session

/-!
Relations between environments that constructs and directives keep.
-/

namespace PrimePlus

open Text (trim)

namespace Environment

/-- A relation between environments that fixes what is looked at and is kept by what is done to
them. -/
structure IsCongruence (R : Environment → Environment → Prop) : Prop where
  depth {env env'} (related : R env env') : env.depth = env'.depth
  hasName {env env'} (related : R env env') (identifier : Text) :
    env.aliases.hasName identifier = env'.aliases.hasName identifier
  hasReal {env env'} (related : R env env') (real : Text) :
    env.aliases.hasReal real = env'.aliases.hasReal real
  nextFree {env env'} (related : R env env') (name : Nat → Text) (last : Nat) :
    env.aliases.nextFree name last = env'.aliases.nextFree name last
  real {env env'} (related : R env env') (identifier : Text) :
    (env.aliases.get? identifier).map Alias.Identity.real =
      (env'.aliases.get? identifier).map Alias.Identity.real
  report {env env'} (related : R env env') (severity : Severity) (message : Text) :
    R (env.report severity message) (env'.report severity message)
  declare {env env'} (related : R env env') (identity : Alias.Identity) :
    R (env.declare identity) (env'.declare identity)
  remove {env env'} (related : R env env') (identifier : Text) :
    R { env with aliases := env.aliases.remove identifier }
      { env' with aliases := env'.aliases.remove identifier }
  useNamespace {env env'} (related : R env env') (name : Text) :
    R (env.useNamespace name) (env'.useNamespace name)
  removeNamespace {env env'} (related : R env env') (name : Text) :
    R { env with aliases := env.aliases.removeNamespace name }
      { env' with aliases := env'.aliases.removeNamespace name }
  tell {env env'} (related : R env env') (verbose : Bool) :
    R { env with aliases := { env.aliases with verbose := verbose } }
      { env' with aliases := { env'.aliases with verbose := verbose } }
  resolveAliases {env env'} (related : R env env') (t : Text) :
    (env.resolveAliases t).1 = (env'.resolveAliases t).1 ∧
      R (env.resolveAliases t).2 (env'.resolveAliases t).2
  foldWhole {env env'} (related : R env env') (t : Text) :
    (env.foldWhole t).1 = (env'.foldWhole t).1 ∧ R (env.foldWhole t).2 (env'.foldWhole t).2

namespace IsCongruence

variable {R : Environment → Environment → Prop} (stable : IsCongruence R)
  {env env' : Environment} (related : R env env')

include stable related

theorem get?_cases (identifier : Text) :
    env.aliases.get? identifier = none ∧ env'.aliases.get? identifier = none ∨
      ∃ prior prior', env.aliases.get? identifier = some prior ∧
        env'.aliases.get? identifier = some prior' ∧ prior'.real = prior.real := by
  have eq := stable.real related identifier
  cases left : env.aliases.get? identifier with
  | none =>
    rw [left] at eq
    exact .inl ⟨rfl, Option.map_eq_none_iff.mp eq.symm⟩
  | some prior =>
    rw [left] at eq
    obtain ⟨prior', right, real⟩ := Option.map_eq_some_iff.mp eq.symm
    exact .inr ⟨prior, prior', rfl, right, real⟩

theorem declareAs (n : Option Text) (identityOf : Text → Alias.Identity) :
    R (match n with
        | some t => env.declare (identityOf t)
        | none => env)
      (match n with
        | some t => env'.declare (identityOf t)
        | none => env') := by
  cases n with
  | none => exact related
  | some t => exact stable.declare related (identityOf t)

end IsCongruence

variable {α : Type} {R : Environment → Environment → Prop}

theorem foldl_related {step : Environment → α → Environment}
    (each : ∀ {env env' : Environment} (a : α), R env env' → R (step env a) (step env' a))
    {env env' : Environment} (related : R env env') (xs : List α) :
    R (xs.foldl step env) (xs.foldl step env') :=
  List.foldl_rel (r := R) related fun a _ _ _ pre => each a pre

/-- Whether two results with a state and an environment after them are the same but for what a
relation lets differ. -/
def RelatedAfter {α β : Type} (R : Environment → Environment → Prop)
    (left right : α × β × Environment) : Prop :=
  left.1 = right.1 ∧ left.2.1 = right.2.1 ∧ R left.2.2 right.2.2

theorem RelatedAfter.map {β γ : Type}
    {left right : α × β × Environment} (after : RelatedAfter R left right) (f : α → γ) :
    RelatedAfter R (f left.1, left.2) (f right.1, right.2) :=
  ⟨congrArg f after.1, after.2⟩

end Environment

open Environment (IsCongruence RelatedAfter foldl_related)

namespace Construct

variable {R : Environment → Environment → Prop} (stable : IsCongruence R)
  {env env' : Environment} (related : R env env')

include stable related

theorem synonym?_related (l : Text) : Option.Rel R (synonym? env l) (synonym? env' l) := by
  unfold synonym?
  rw [← stable.depth related]
  cases synonymPattern.find? (trim l) with
  | none => exact .none
  | some hit => exact .some (stable.declare related _)

theorem namespaceUse?_related (l : Text) :
    Option.Rel R (namespaceUse? env l) (namespaceUse? env' l) := by
  unfold namespaceUse?
  cases namespacePattern.find? (trim l) with
  | none => exact .none
  | some hit =>
    refine .some ?_
    dsimp only
    split
    · exact stable.useNamespace related (hit.group 2)
    · exact stable.removeNamespace related (hit.group 2)

theorem definition?_related (l : Text) : Option.Rel R (definition? env l) (definition? env' l) := by
  unfold definition?
  dsimp only
  split
  · next hit _ => exact .some (stable.remove related (hit.group 1))
  · cases definitionPattern.find? (trim l) with
    | none => exact .none
    | some hit => exact .some (stable.declare related _)

theorem declareField_related (owner field : Text) :
    R (declareField owner env field) (declareField owner env' field) := by
  unfold declareField
  dsimp only
  split
  · exact stable.report related _ _
  · exact stable.declare related _

theorem dictionary?_related (l : Text) : Option.Rel R (dictionary? env l) (dictionary? env' l) := by
  unfold dictionary?
  cases dictionaryPattern.find? (trim l) with
  | none => exact .none
  | some hit =>
    refine .some (foldl_related (fun field pre => ?_) related _)
    exact declareField_related stable pre (hit.group 2) field

theorem enumeration?_related (opened : Option Text) (l : Text) :
    Option.Rel (fun next next' => next.1 = next'.1 ∧ R next.2 next'.2)
      (enumeration? opened env l) (enumeration? opened env' l) := by
  unfold enumeration?
  dsimp only
  split
  · split
    · exact .some ⟨rfl, related⟩
    · refine .some ⟨rfl, foldl_related (fun hit pre => ?_) related _⟩
      refine foldl_related (fun identifier pre => ?_) pre _
      exact stable.declare pre _
  · cases enumerationPattern.find? (trim l) with
    | none => exact .none
    | some hit => exact .some ⟨rfl, related⟩

section Naming

open Naming

theorem generate_related (naming : Naming) (cls : NameClass) :
    naming.generate cls env.aliases = naming.generate cls env'.aliases := by
  unfold generate
  rw [stable.nextFree related]

theorem declared_related (naming : Naming) (cls : NameClass) (head : Text) :
    naming.declared cls env.aliases head = naming.declared cls env'.aliases head := by
  unfold declared
  simp only [generate_related stable related naming cls]
  split
  · next hit hm =>
    -- of an identity that is in force only the text it stands for is used
    rcases stable.get?_cases related (hit.group 2) with
      ⟨left, right⟩ | ⟨prior, prior', left, right, real⟩
    · rw [left, right]
    · rw [left, right]
      dsimp only
      rw [real]
  · split
    · rcases stable.get?_cases related (trim head) with
        ⟨left, right⟩ | ⟨prior, prior', left, right, real⟩
      · rw [left, right]
      · rw [left, right]
        dsimp only
        rw [real]
    · rfl

theorem variableItems_related (cls : NameClass) (naming : Naming) (items : List Text) :
    RelatedAfter R (variableItems cls naming env items) (variableItems cls naming env' items) := by
  induction items generalizing naming env env' with
  | nil => exact ⟨rfl, rfl, related⟩
  | cons item r ih =>
    unfold variableItems
    dsimp only
    split
    · exact ih related naming
    · rw [← declared_related stable related naming cls]
      generalize naming.declared cls env.aliases (splitInitial item).1 = given
      obtain ⟨real, identifier, naming⟩ := given
      exact (ih (stable.declareAs related identifier fun identifier =>
        { identifier := identifier, real := real, kind := .var }) naming).map (List.cons _)

theorem variables?_related (naming : Naming) (l : Text) :
    Option.Rel (RelatedAfter R) (naming.variables? env l) (naming.variables? env' l) := by
  unfold variables?
  rw [← stable.depth related]
  split
  · exact .none
  · split
    · exact .none
    · exact .some ((variableItems_related stable related _ naming _).map fun names =>
        _ ++ Text.join ", ".toList names ++ _)

theorem parameterNames_related (isForward : Bool) (naming : Naming) (parameters : List Text) :
    RelatedAfter R (parameterNames isForward naming env parameters)
      (parameterNames isForward naming env' parameters) := by
  induction parameters generalizing naming env env' with
  | nil => exact ⟨rfl, rfl, related⟩
  | cons parameter r ih =>
    unfold parameterNames
    split
    · exact ih related naming
    · rw [← declared_related stable related naming .parameter]
      generalize naming.declared .parameter env.aliases parameter = given
      obtain ⟨real, identifier, naming⟩ := given
      cases identifier with
      | none => exact (ih related naming).map (real :: ·)
      | some identifier =>
        cases isForward with
        | true => exact (ih related naming).map (real :: ·)
        | false => exact (ih (stable.declare related _) naming).map (real :: ·)

theorem header?_related (naming : Naming) (l : Text) :
    Option.Rel (RelatedAfter R) (naming.header? env l) (naming.header? env' l) := by
  unfold header?
  rw [← stable.depth related]
  split
  · exact .none
  · split
    · exact .none
    · next hit _ =>
      split
      · exact .none
      · rw [← declared_related stable related naming .function]
        generalize naming.declared .function env.aliases (hit.group 3) = given
        obtain ⟨real, identifier, naming⟩ := given
        have declared := stable.declareAs related identifier fun identifier =>
          { identifier := identifier, real := real, kind := .function, scope := .level 0 }
        exact .some ((parameterNames_related stable declared _
          (naming.setLast 0 .parameter) _).map fun names => _ ++ '(' :: Text.join [','] names ++ _)

theorem naming_related (naming : Naming) (l : Text) :
    Option.Rel (RelatedAfter R) (naming.lower? env l) (naming.lower? env' l) := by
  have first := variables?_related stable related naming l
  unfold lower?
  cases left : naming.variables? env l <;> cases right : naming.variables? env' l <;>
    rw [left, right] at first
  · exact header?_related stable related naming l
  · cases first
  · cases first
  · exact first

end Naming

section Records

open Records

theorem instanceNames_related (records : Records) (declared : Text) :
    records.instanceNames env.aliases declared = records.instanceNames env'.aliases declared := by
  unfold instanceNames generate
  simp only [stable.nextFree related]

theorem declareMembers_related (record : Record) (real identifier : Text) :
    R (declareMembers record real identifier env) (declareMembers record real identifier env') := by
  refine foldl_related (fun mem pre => ?_) related _
  split
  · exact stable.report pre _ _
  · exact stable.declare pre _

theorem instances_related (record : Record) (records : Records) (items : List Text) :
    RelatedAfter R (instances record records env items) (instances record records env' items) := by
  induction items generalizing records env env' with
  | nil => exact ⟨rfl, rfl, related⟩
  | cons item r ih =>
    unfold instances
    dsimp only
    split
    · exact ih related records
    · rw [← instanceNames_related stable related records, ← stable.hasReal related]
      generalize records.instanceNames env.aliases (trim item) = given
      obtain ⟨real, identifier, records⟩ := given
      have hsuf := ih (declareMembers_related stable related record real identifier) records
      split
      · exact hsuf
      · exact hsuf.map (List.cons _)

theorem instantiate?_related (records : Records) (l : Text) :
    Option.Rel (RelatedAfter R) (records.instantiate? env l) (records.instantiate? env' l) := by
  unfold instantiate?
  cases instancesPattern.find? l with
  | none => exact .none
  | some hit =>
    simp only [Option.bind_eq_bind, Option.bind_some]
    cases records.get? (hit.group 2) with
    | none => exact .none
    | some record =>
      obtain ⟨names, next, after⟩ := instances_related stable related record records
        (Lexical.splitTop ',' (hit.group 3))
      exact .some ⟨by rw [names], next, after⟩

theorem records_related (records : Records) (l : Text) :
    Option.Rel (RelatedAfter R) (records.lower? env l) (records.lower? env' l) := by
  unfold lower?
  dsimp only
  split
  · exact .some ⟨rfl, rfl, related⟩
  · split
    · next hit _ =>
      -- a report leaves the number of open blocks, which says whether the record is local
      have opened := congrArg (fun d => ({ records with
        opened := some ⟨hit.group 1, [], d != 0⟩ } : Records)) (stable.depth related)
      split
      · exact .some ⟨rfl, opened, stable.report related _ _⟩
      · exact .some ⟨rfl, opened, related⟩
    · exact instantiate?_related stable related records l

end Records

theorem unstash_related (stash : Stash) (pieces : List Regex.Piece) :
    RelatedAfter R (unstash stash env pieces) (unstash stash env' pieces) := by
  induction pieces generalizing stash env env' with
  | nil => exact ⟨rfl, rfl, related⟩
  | cons piece r ih =>
    cases piece with
    | gap c => exact (ih related stash).map (c :: ·)
    | hit m =>
      unfold unstash
      split
      · exact ih related _
      · next top below _ =>
        exact (ih related (if m.text = "__POP__".toList then below else top :: below)).map
          (top ++ ·)
      · exact ih (stable.report related _ _) _

theorem stash?_related (stash : Stash) (l : Text) :
    Option.Rel (RelatedAfter R) (stash? stash env l) (stash? stash env' l) := by
  unfold stash?
  split
  · exact .some (unstash_related stable related stash _)
  · exact .none

structure Outcome.Related (R : Environment → Environment → Prop) (outcome outcome' : Outcome) :
    Prop where
  line : outcome.line = outcome'.line
  memory : outcome.memory = outcome'.memory
  env : R outcome.env outcome'.env

omit stable in
theorem declared_outcome_related (memory : Memory) {result result' : Option Environment} :
    Option.Rel R result result' → Outcome.Related R
      (match result with
        | some env => ⟨some [], memory, env⟩
        | none => ⟨none, memory, env⟩)
      (match result' with
        | some env => ⟨some [], memory, env⟩
        | none => ⟨none, memory, env'⟩) := by
  intro results
  cases results with
  | none => exact ⟨rfl, rfl, related⟩
  | some after => exact ⟨rfl, rfl, after⟩

theorem apply_related (con : Construct) (memory : Memory) (l : Text) :
    Outcome.Related R (con.apply memory env l) (con.apply memory env' l) := by
  cases con with
  | synonym =>
    exact declared_outcome_related related memory (synonym?_related stable related l)
  | definition =>
    exact declared_outcome_related related memory (definition?_related stable related l)
  | dictionary =>
    exact declared_outcome_related related memory (dictionary?_related stable related l)
  | namespaceUse =>
    exact declared_outcome_related related memory (namespaceUse?_related stable related l)
  | naming =>
    have results := naming_related stable related memory.naming l
    unfold apply
    generalize memory.naming.lower? env l = result at results ⊢
    generalize memory.naming.lower? env' l = result' at results ⊢
    cases results with
    | none => exact ⟨rfl, rfl, related⟩
    | some after =>
      exact ⟨congrArg some after.1,
        congrArg (fun next => { memory with naming := next }) after.2.1, after.2.2⟩
  | stash =>
    have results := stash?_related stable related memory.stash l
    unfold apply
    generalize stash? memory.stash env l = result at results ⊢
    generalize stash? memory.stash env' l = result' at results ⊢
    cases results with
    | none => exact ⟨rfl, rfl, related⟩
    | some after =>
      exact ⟨congrArg some after.1,
        congrArg (fun next => { memory with stash := next }) after.2.1, after.2.2⟩
  | record =>
    have results := records_related stable related memory.records l
    unfold apply
    generalize memory.records.lower? env l = result at results ⊢
    generalize memory.records.lower? env' l = result' at results ⊢
    cases results with
    | none => exact ⟨rfl, rfl, related⟩
    | some after =>
      exact ⟨congrArg some after.1,
        congrArg (fun next => { memory with records := next }) after.2.1, after.2.2⟩
  | enumeration =>
    have results := enumeration?_related stable related memory.enumeration l
    unfold apply
    generalize enumeration? memory.enumeration env l = result at results ⊢
    generalize enumeration? memory.enumeration env' l = result' at results ⊢
    cases results with
    | none => exact ⟨rfl, rfl, related⟩
    | some after =>
      exact ⟨rfl, congrArg (fun next => { memory with enumeration := next }) after.1, after.2⟩
  | loop | switch | conditional =>
    unfold apply
    rw [stable.depth related]
    exact ⟨rfl, rfl, related⟩
  | operator => exact ⟨rfl, rfl, related⟩
  | keyword =>
    unfold apply
    rw [← stable.depth related]
    refine ⟨rfl, rfl, ?_⟩
    dsimp only
    split
    · exact stable.report related _ _
    · exact related

end Construct

namespace Directive

variable {R : Environment → Environment → Prop} (stable : IsCongruence R)
  {env env' : Environment} (related : R env env')

include stable related

theorem define_related (r : Text) : R (define env r) (define env' r) := by
  unfold define
  split
  · exact stable.report related _ _
  · next hit _ =>
    obtain ⟨text, resolved⟩ := stable.resolveAliases related (trim (hit.group 3))
    obtain ⟨real, folded⟩ :=
      stable.foldWhole resolved (env.resolveAliases (trim (hit.group 3))).1
    dsimp only
    rw [← text, ← real]
    exact stable.declare folded _

theorem setOptions_related (r : Text) : R (setOptions env r) (setOptions env' r) := by
  refine foldl_related (fun option pre => ?_) related _
  split
  · exact stable.tell pre true
  · split
    · exact stable.tell pre false
    · exact pre

theorem condition_related (r : Text) :
    (condition env r).1 = (condition env' r).1 ∧ R (condition env r).2 (condition env' r).2 := by
  unfold condition
  split
  · exact ⟨rfl, stable.report related _ _⟩
  · next hit _ =>
    refine ⟨?_, related⟩
    rcases stable.get?_cases related (hit.group 1) with
      ⟨left, right⟩ | ⟨prior, prior', left, right, real⟩
    · rw [left, right]
    · rw [left, right]
      simp only [Option.bind_eq_bind, Option.bind_some, real]

theorem perform_related (fs : FileSystem) (l r : Text) (state : DirectiveState) (w : DirectiveWord)
    (eq : w = .inclusion → includedPath? env fs r = includedPath? env' fs r) :
    RelatedAfter R (perform fs l r state env w) (perform fs l r state env' w) := by
  cases w with
  | inclusion =>
    rw [perform, perform, eq rfl]
    split
    · exact ⟨rfl, rfl, related⟩
    · exact ⟨rfl, rfl, stable.report related _ _⟩
  | definition => exact ⟨rfl, rfl, define_related stable related r⟩
  | removal => exact ⟨rfl, rfl, stable.remove related r⟩
  | pragma =>
    rw [perform, perform]
    split
    · exact ⟨rfl, rfl, related⟩
    · exact ⟨rfl, rfl, setOptions_related stable related r⟩
  | ifDefined | ifUndefined =>
    rw [perform, stable.hasName related]
    exact ⟨rfl, rfl, related⟩
  | ifCompares =>
    obtain ⟨P, after⟩ := condition_related stable related r
    exact ⟨rfl, congrArg (fun P => { state with isSkipping := !P }) P, after⟩
  | otherwise | finish | other => exact ⟨rfl, rfl, related⟩

/-- A directive does the same in environments that are related, and leaves them related, where a
file that is included is found at the same place. -/
theorem read_related (fs : FileSystem) (l : Text) (st : DirectiveState)
    (eq : IsInclusion (trim l) → ∀ r, includedPath? env fs r = includedPath? env' fs r) :
    RelatedAfter R (read fs l st env) (read fs l st env') := by
  unfold read
  dsimp only
  split
  · exact ⟨rfl, rfl, related⟩
  · split
    · exact ⟨rfl, rfl, related⟩
    · split
      · exact ⟨rfl, rfl, related⟩
      · split
        · exact ⟨rfl, rfl, related⟩
        · next w r hit =>
          split
          · exact ⟨rfl, rfl, related⟩
          · refine perform_related stable related fs _ r st w fun inclusion =>
              eq ⟨(w, r), hit, inclusion⟩ r

end Directive

end PrimePlus
