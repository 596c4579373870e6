import PrimePlus.Proofs.DirectiveLine

/-!
Conditionals without a stack: what a reader of directives keeps stands for one (`Tracks`).
-/

namespace PrimePlus.Conditionals

open List

/-- What a line means for the nesting of conditionals. -/
inductive LineRole where
  | opens
  | divides
  | closes
  | plain
  deriving Repr, DecidableEq

def LineRole.ofWord : DirectiveWord → LineRole
  | .ifDefined | .ifUndefined | .ifCompares => .opens
  | .otherwise => .divides
  | .finish => .closes
  | _ => .plain

def LineRole.ofLine (line : Text) : LineRole :=
  match Directive.ofLine? (Text.trim line) with
  | none => .plain
  | some (word, _) => ofWord word

/-- Lines in which every conditional that is opened is closed and divided at most once, and nothing
else is divided or closed. -/
inductive Nested : List Text → Prop where
  | nil : Nested []
  | plain {line : Text} {rest : List Text} :
      LineRole.ofLine line = .plain → Nested rest → Nested (line :: rest)
  | conditional {opening closing : Text} {body rest : List Text} :
      LineRole.ofLine opening = .opens → Nested body → LineRole.ofLine closing = .closes →
      Nested rest → Nested (opening :: body ++ closing :: rest)
  | divided {opening divider closing : Text} {body alternative rest : List Text} :
      LineRole.ofLine opening = .opens → Nested body → LineRole.ofLine divider = .divides →
      Nested alternative → LineRole.ofLine closing = .closes → Nested rest →
      Nested (opening :: body ++ divider :: alternative ++ closing :: rest)

structure OpenConditional where
  /-- Whether its condition held; nothing if the condition was not looked at. -/
  held : Option Bool
  isDivided : Bool
  deriving Repr, DecidableEq

/-- Whether the branch that has been reached is the taken one. Neither branch of a conditional is
taken whose condition was not looked at. -/
def OpenConditional.isTaken (conditional : OpenConditional) : Bool :=
  match conditional.held with
  | none => false
  | some held => held != conditional.isDivided

/-- An interpreter of directives with all open conditionals, the innermost first. -/
structure Interpreter where
  stack : List OpenConditional
  env : Environment

namespace Interpreter

def isActive (now : Interpreter) : Bool :=
  now.stack.all OpenConditional.isTaken

/-- Open a conditional. Its condition is looked at only if every branch around it is taken. -/
def enter (now : Interpreter) (condition : Environment → Bool × Environment) :
    Interpreter :=
  if now.isActive then
    let (holds, env) := condition now.env
    ⟨⟨some holds, false⟩ :: now.stack, env⟩
  else ⟨⟨none, false⟩ :: now.stack, now.env⟩

/-- The interpreter after the word of a directive. What is not a conditional is done only if every
branch around it is taken. -/
def perform (files : FileSystem) (line rest : Text) (now : Interpreter) :
    DirectiveWord → Interpreter
  | .ifDefined => now.enter fun env => (env.aliases.hasName rest, env)
  | .ifUndefined => now.enter fun env => (!env.aliases.hasName rest, env)
  | .ifCompares => now.enter fun env => Directive.condition env rest
  | .otherwise =>
    { now with
      stack := now.stack.modifyHead fun conditional =>
        { conditional with isDivided := true } }
  | .finish => { now with stack := now.stack.tail }
  | word =>
    if now.isActive then
      { now with env := (Directive.perform files line rest {} now.env word).2.2 }
    else now

def step (files : FileSystem) (line : Text) (now : Interpreter) : Interpreter :=
  match Directive.ofLine? (Text.trim line) with
  | none => now
  | some (word, rest) => now.perform files (Text.trim line) rest word

end Interpreter

/-- A line that is read, and what happens to the environment before the next one is. -/
structure Reading where
  line : Text
  between : Environment → Environment

def readAll (files : FileSystem) (readings : List Reading) (start : DirectiveState × Environment) :
    DirectiveState × Environment :=
  readings.foldl (fun now reading =>
    let (_, state, env) := Directive.read files reading.line now.1 now.2
    (state, reading.between env)) start

def Interpreter.runAll (files : FileSystem) (readings : List Reading) (start : Interpreter) :
    Interpreter :=
  readings.foldl (fun now reading =>
    let next := now.step files reading.line
    { next with env := reading.between next.env }) start

/-- The flag and the number that stand for a stack of open conditionals. -/
inductive Tracks : DirectiveState → List OpenConditional → Prop where
  /-- Every branch is taken. -/
  | taking {stack : List OpenConditional} (taken : ∀ conditional ∈ stack, conditional.isTaken) :
      Tracks ⟨false, 0, []⟩ stack
  /-- The outermost branch that is not taken belongs to a conditional that was looked at; those
  inside it were not. -/
  | skipping {inner outer : List OpenConditional} {held : Bool}
      (unseen : ∀ conditional ∈ inner, conditional.held = none)
      (taken : ∀ conditional ∈ outer, conditional.isTaken) :
      Tracks ⟨true, inner.length, []⟩ (inner ++ ⟨some held, held⟩ :: outer)

structure InStep (state : DirectiveState) (env : Environment) (now : Interpreter)
    (flags : List Bool) : Prop where
  tracks : Tracks state now.stack
  env_eq : now.env = env
  flags_eq : now.stack.map OpenConditional.isDivided = flags

namespace Tracks

variable {state : DirectiveState} {stack : List OpenConditional}

section

variable (tracks : Tracks state stack)

include tracks

theorem embedded_eq_nil : state.embedded = [] := by
  cases tracks <;> rfl

theorem skipped_eq_zero (taking : state.isSkipping = false) : state.skipped = 0 := by
  cases tracks with
  | taking => rfl
  | skipping => cases taking

theorem isActive_eq (env : Environment) :
    Interpreter.isActive ⟨stack, env⟩ = !state.isSkipping := by
  cases tracks with
  | taking taken => simpa [Interpreter.isActive] using taken
  | skipping unseen taken => simp [Interpreter.isActive, OpenConditional.isTaken]

theorem isSkipping_iff : state.isSkipping ↔ ∃ conditional ∈ stack, conditional.isTaken = false := by
  have active := tracks.isActive_eq (Environment.start {})
  simp only [Interpreter.isActive] at active
  rw [← Bool.not_eq_false, ← Bool.not_eq_true', ← active]
  simp

theorem enter (env : Environment) (cond : Environment → Bool × Environment) :
    InStep (if state.isSkipping then { state with skipped := state.skipped + 1 }
        else { state with isSkipping := !(cond env).1 })
      (if state.isSkipping then env else (cond env).2) (Interpreter.enter ⟨stack, env⟩ cond)
      (false :: stack.map OpenConditional.isDivided) := by
  unfold Interpreter.enter
  rw [tracks.isActive_eq env]
  cases tracks with
  | taking taken =>
    refine ⟨?_, rfl, rfl⟩
    show Tracks ⟨!(cond env).1, 0, []⟩ (⟨some (cond env).1, false⟩ :: stack)
    cases (cond env).1 with
    | true => exact taking (forall_mem_cons.mpr ⟨rfl, taken⟩)
    | false => exact skipping (forall_mem_nil _) taken
  | @skipping inner outer held unseen taken =>
    have more : ∀ conditional ∈ (⟨none, false⟩ : OpenConditional) :: inner,
        conditional.held = none :=
      forall_mem_cons.mpr ⟨rfl, unseen⟩
    exact ⟨skipping more taken, rfl, rfl⟩

end

variable {top : OpenConditional} {outer : List OpenConditional}

/-- Reaching the second branch of the innermost conditional turns skipping on or off, unless the
conditional itself stands in a branch that is not taken. -/
theorem divide (tracks : Tracks state (top :: outer)) (undivided : top.isDivided = false) :
    Tracks (if state.isSkipping then state.skip .otherwise else { state with isSkipping := true })
      ({ top with isDivided := true } :: outer) := by
  obtain ⟨held, divided⟩ := top
  subst undivided
  generalize shape : (⟨held, false⟩ : OpenConditional) :: outer = stack at tracks
  cases tracks with
  | taking taken =>
    subst shape
    obtain ⟨top, others⟩ := forall_mem_cons.mp taken
    cases held with
    | none => cases top
    | some held =>
      cases held with
      | false => cases top
      | true =>
        exact skipping (forall_mem_nil _) others
  | @skipping inner r value unseen taken =>
    cases inner with
    | nil =>
      obtain ⟨eq, rfl⟩ := cons.inj shape
      cases eq
      exact taking (forall_mem_cons.mpr ⟨rfl, taken⟩)
    | cons first inner =>
      obtain ⟨rfl, rfl⟩ := cons.inj shape
      obtain ⟨top, others⟩ := forall_mem_cons.mp unseen
      have unseen' : ∀ conditional ∈ (⟨held, true⟩ : OpenConditional) :: inner,
          conditional.held = none :=
        forall_mem_cons.mpr ⟨top, others⟩
      exact skipping unseen' taken

theorem close (tracks : Tracks state (top :: outer)) :
    Tracks (if state.isSkipping then state.skip .finish else state) outer := by
  generalize shape : top :: outer = stack at tracks
  cases tracks with
  | taking taken =>
    subst shape
    exact taking (forall_mem_cons.mp taken).2
  | @skipping inner r held unseen taken =>
    cases inner with
    | nil =>
      obtain ⟨-, rfl⟩ := cons.inj shape
      exact taking taken
    | cons first inner =>
      obtain ⟨-, rfl⟩ := cons.inj shape
      exact skipping (forall_mem_cons.mp unseen).2 taken

end Tracks

/-- Whether each open conditional has reached its second branch, after a line; nothing if the line
does not fit. -/
def nest : List Bool → LineRole → Option (List Bool)
  | flags, .opens => some (false :: flags)
  | false :: outer, .divides => some (true :: outer)
  | _ :: outer, .closes => some outer
  | flags, .plain => some flags
  | _, _ => none

def nestAll (flags : List Bool) (lines : List Text) : Option (List Bool) :=
  lines.foldlM (fun flags line => nest flags (LineRole.ofLine line)) flags

theorem nestAll_cons (flags : List Bool) (l : Text) (rest : List Text) :
    nestAll flags (l :: rest) =
      (nest flags (LineRole.ofLine l)).bind fun flags => nestAll flags rest := by
  simp [nestAll]

theorem nestAll_append (flags : List Bool) (pre after : List Text) :
    nestAll flags (pre ++ after) = (nestAll flags pre).bind fun flags => nestAll flags after := by
  simp [nestAll]

theorem Nested.nestAll_eq {ls : List Text} (nested : Nested ls) (flags : List Bool) :
    nestAll flags ls = some flags := by
  induction nested generalizing flags with
  | nil => rfl
  | plain role _ ih => simp [nestAll_cons, role, nest, ih]
  | conditional opens _ closes _ bodyIH restIH =>
    simp [nestAll_cons, nestAll_append, opens, closes, nest, bodyIH, restIH]
  | divided opens _ divides _ closes _ bodyIH alternativeIH restIH =>
    simp [nestAll_cons, nestAll_append, opens, divides, closes, nest, bodyIH, alternativeIH, restIH]

variable {word : DirectiveWord} {flags : List Bool}

theorem perform_state (fs : FileSystem) (l r : Text) (state : DirectiveState)
    (env : Environment) (plain : LineRole.ofWord word = .plain) :
    (Directive.perform fs l r state env word).2.1 = state := by
  cases word with
  | inclusion =>
    simp only [Directive.perform]
    split <;> rfl
  | pragma =>
    simp only [Directive.perform]
    split <;> rfl
  | definition | removal | other => rfl
  | ifDefined | ifUndefined | ifCompares | otherwise | finish => cases plain

theorem Interpreter.perform_plain (fs : FileSystem) (l r : Text)
    (now : Interpreter) (plain : LineRole.ofWord word = .plain) :
    now.perform fs l r word =
      if now.isActive then
        { now with env := (Directive.perform fs l r {} now.env word).2.2 }
      else now := by
  cases word with
  | inclusion | definition | removal | pragma | other => rfl
  | ifDefined | ifUndefined | ifCompares | otherwise | finish => cases plain

theorem exists_of_nest_divides {stack : List OpenConditional}
    (fits : nest (stack.map OpenConditional.isDivided) .divides = some flags) :
    ∃ top outer, stack = top :: outer ∧ top.isDivided = false ∧
      flags = true :: outer.map OpenConditional.isDivided := by
  cases stack with
  | nil => cases fits
  | cons top outer =>
    cases divided : top.isDivided with
    | true =>
      rw [map_cons, divided] at fits
      cases fits
    | false =>
      rw [map_cons, divided] at fits
      cases fits
      exact ⟨top, outer, rfl, divided, rfl⟩

theorem exists_of_nest_closes {stack : List OpenConditional}
    (fits : nest (stack.map OpenConditional.isDivided) .closes = some flags) :
    ∃ top outer, stack = top :: outer ∧ flags = outer.map OpenConditional.isDivided := by
  cases stack with
  | nil => cases fits
  | cons top outer =>
    exact ⟨top, outer, rfl, (Option.some.inj fits).symm⟩

namespace Tracks

variable {state : DirectiveState} {stack : List OpenConditional}

variable {flags : List Bool}

theorem perform (tracks : Tracks state stack) (fs : FileSystem) (l r : Text)
    (env : Environment) (word : DirectiveWord)
    (fits : nest (stack.map OpenConditional.isDivided) (LineRole.ofWord word) = some flags) :
    InStep (if state.isSkipping then state.skip word
        else (Directive.perform fs l r state env word).2.1)
      (if state.isSkipping then env else (Directive.perform fs l r state env word).2.2)
      (Interpreter.perform fs l r ⟨stack, env⟩ word) flags := by
  cases word with
  | ifDefined =>
    cases fits
    exact tracks.enter env fun env => (env.aliases.hasName r, env)
  | ifCompares =>
    cases fits
    exact tracks.enter env fun env => Directive.condition env r
  | ifUndefined =>
    cases fits
    have next := tracks.enter env fun env => (!env.aliases.hasName r, env)
    rwa [Bool.not_not] at next
  | otherwise =>
    obtain ⟨top, outer, rfl, undivided, rfl⟩ := exists_of_nest_divides fits
    exact ⟨tracks.divide undivided, (ite_self _).symm, rfl⟩
  | finish =>
    obtain ⟨top, outer, rfl, rfl⟩ := exists_of_nest_closes fits
    exact ⟨tracks.close, (ite_self _).symm, rfl⟩
  | inclusion | definition | removal | pragma | other =>
    cases fits
    rw [Interpreter.perform_plain fs l r _ rfl, tracks.isActive_eq,
      perform_state fs l r state env rfl]
    cases tracks with
    | taking taken => exact ⟨.taking taken, rfl, rfl⟩
    | skipping unseen taken => exact ⟨.skipping unseen taken, rfl, rfl⟩

/-- Reading a line keeps the flag and the number in step with the stack, and does the same to the
environment. -/
theorem step (tracks : Tracks state stack) (fs : FileSystem) (l : Text) (env : Environment)
    (hu : ¬Directive.IsMarker (Text.trim l))
    (fits : nest (stack.map OpenConditional.isDivided) (LineRole.ofLine l) = some flags) :
    InStep (Directive.read fs l state env).2.1 (Directive.read fs l state env).2.2
      (Interpreter.step fs l ⟨stack, env⟩) flags := by
  rw [Directive.read_of_not_isMarker fs l state env tracks.embedded_eq_nil hu]
  unfold Interpreter.step
  unfold LineRole.ofLine at fits
  cases parts : Directive.ofLine? (Text.trim l) with
  | none =>
    rw [parts] at fits
    cases fits
    exact ⟨tracks, rfl, rfl⟩
  | some parts' =>
    obtain ⟨word, r⟩ := parts'
    rw [parts] at fits
    have next := tracks.perform fs (Text.trim l) r env word fits
    cases skipping : state.isSkipping <;> rwa [skipping] at next

end Tracks

theorem Tracks.readAll {state : DirectiveState} {stack : List OpenConditional}
    (tracks : Tracks state stack) (fs : FileSystem) (readings : List Reading) (env : Environment)
    (hu : ∀ reading ∈ readings, ¬Directive.IsMarker (Text.trim reading.line))
    (fits : nestAll (stack.map OpenConditional.isDivided) (readings.map Reading.line) = some
      flags) :
    InStep (readAll fs readings (state, env)).1 (Conditionals.readAll fs readings (state, env)).2
      (Interpreter.runAll fs readings ⟨stack, env⟩) flags := by
  induction readings generalizing state stack env with
  | nil =>
    cases fits
    exact ⟨tracks, rfl, rfl⟩
  | cons reading r ih =>
    obtain ⟨hb, lineFits, restFits⟩ := Option.bind_eq_some_iff.mp fits
    obtain ⟨first, later⟩ := forall_mem_cons.mp hu
    obtain ⟨next, sameEnv, sameFlags⟩ := tracks.step fs reading.line env first lineFits
    rw [← sameFlags] at restFits
    have kept := ih next (reading.between (Interpreter.step fs reading.line ⟨stack, env⟩).env)
      later restFits
    simp only [Conditionals.readAll, foldl_cons] at kept ⊢
    rw [← sameEnv]
    exact kept

/-- Conditional compilation without a stack. For nested lines without markers, whatever else happens
to the environment between them: before each line and after the last, lines are skipped exactly if
some branch around them is not the taken one in the interpreter that keeps every open conditional
and looks at a condition, in the environment of that moment, only if every branch around it is
taken; both have the same environment; nothing is counted while nothing is skipped; and where no
conditional is open nothing is skipped or counted. -/
theorem skipping_refines_stack (files : FileSystem) (env : Environment)
    (readings before : List Reading) (sofar : before <+: readings)
    (unmarked : ∀ reading ∈ readings, ¬Directive.IsMarker (Text.trim reading.line))
    (nested : Nested (readings.map Reading.line)) :
    ((readAll files before ({}, env)).1.isSkipping = true ↔
      ∃ conditional ∈ (Interpreter.runAll files before ⟨[], env⟩).stack,
        conditional.isTaken = false) ∧
    (Interpreter.runAll files before ⟨[], env⟩).env = (readAll files before ({}, env)).2 ∧
    ((readAll files before ({}, env)).1.isSkipping = false →
      (readAll files before ({}, env)).1.skipped = 0) ∧
    (Nested (before.map Reading.line) →
      (Interpreter.runAll files before ⟨[], env⟩).stack = [] ∧
      (readAll files before ({}, env)).1.isSkipping = false ∧
      (readAll files before ({}, env)).1.skipped = 0) := by
  obtain ⟨after, rfl⟩ := sofar
  have whole := nested.nestAll_eq []
  rw [map_append, nestAll_append] at whole
  obtain ⟨flags, fits, -⟩ := Option.bind_eq_some_iff.mp whole
  have base : Tracks {} [] := Tracks.taking (forall_mem_nil _)
  obtain ⟨tracks, sameEnv, sameFlags⟩ := base.readAll files before env
    (fun reading member => unmarked reading (mem_append_left after member)) fits
  refine ⟨tracks.isSkipping_iff, sameEnv, tracks.skipped_eq_zero, ?_⟩
  intro closed
  rw [closed.nestAll_eq []] at fits
  cases fits
  have empty := map_eq_nil_iff.mp sameFlags
  rw [empty] at tracks
  have taking : (readAll files before ({}, env)).1.isSkipping = false := by
    rw [← Bool.not_eq_true, tracks.isSkipping_iff]
    simp
  exact ⟨empty, taking, tracks.skipped_eq_zero taking⟩

/-- A conditional with two branches inside the first branch of another, read up to the second branch
of the inner one. -/
theorem skipping_refines_stack_inner :
    let readings := ["#ifndef A", "#if A == 1", "#else", "x := 1;", "#endif", "#else", "#end"].map
      fun line => (⟨line.toList, Environment.nextLine⟩ : Reading)
    readings.take 3 <+: readings ∧
    (∀ reading ∈ readings, ¬Directive.IsMarker (Text.trim reading.line)) ∧
    Nested (readings.map Reading.line) ∧
    ((readAll {} (readings.take 3) ({}, Environment.start {})).1.isSkipping = true ↔
      ∃ conditional ∈ (Interpreter.runAll {} (readings.take 3) ⟨[], Environment.start {}⟩).stack,
        conditional.isTaken = false) := by
  intro readings
  have sofar : readings.take 3 <+: readings := take_prefix 3 readings
  have unmarked : ∀ reading ∈ readings, ¬Directive.IsMarker (Text.trim reading.line) := by decide
  have nested : Nested (readings.map Reading.line) := by
    refine @Nested.divided _ _ _ [_, _, _, _] [] [] (by decide) ?_ (by decide) .nil (by decide) .nil
    refine @Nested.divided _ _ _ [] [_] [] (by decide) .nil (by decide) ?_ (by decide) .nil
    exact .plain (by decide) .nil
  exact ⟨sofar, unmarked, nested,
    (skipping_refines_stack {} (Environment.start {}) readings _ sofar unmarked nested).1⟩

end PrimePlus.Conditionals
