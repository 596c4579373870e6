import PrimePlus.Environment
import PrimePlus.Proofs.AliasTable

/-!
Blocks as scopes: what is declared inside a block is gone behind it.
-/

namespace PrimePlus

structure Declarations where
  identities : List Alias.Identity
  namespaces : List Alias.Namespace
  rules : List Rule

namespace Declarations

def upTo (depth : Nat) (declarations : Declarations) : Declarations where
  identities := declarations.identities.filter fun identity => identity.level ≤ depth
  namespaces := declarations.namespaces.filter fun space => space.level ≤ depth
  rules := declarations.rules.filter fun rule => rule.level ≤ depth

structure AreWithin (depth : Nat) (declarations : Declarations) : Prop where
  identities : ∀ identity ∈ declarations.identities, identity.level ≤ depth
  namespaces : ∀ space ∈ declarations.namespaces, space.level ≤ depth
  rules : ∀ rule ∈ declarations.rules, rule.level ≤ depth

variable {α : Type} {d high low : Nat}

private theorem filter_level_eq_self (level : α → Nat) {l : List α}
    (within : ∀ a ∈ l, level a ≤ d) : l.filter (fun a => level a ≤ d) = l := by
  rw [List.filter_eq_self]
  intro a mem
  exact decide_eq_true (within a mem)

theorem AreWithin.upTo_eq {declarations : Declarations}
    (within : declarations.AreWithin d) : declarations.upTo d = declarations := by
  simp only [upTo, filter_level_eq_self _ within.identities,
    filter_level_eq_self _ within.namespaces, filter_level_eq_self _ within.rules]

private theorem filter_level_filter_level (level : α → Nat) (le : low ≤ high) (l : List α) :
    (l.filter fun a => level a ≤ high).filter (fun a => level a ≤ low) =
      l.filter fun a => level a ≤ low := by
  rw [List.filter_filter]
  apply List.filter_congr
  intro a _
  by_cases small : level a ≤ low
  · simp [small, Nat.le_trans small le]
  · simp [small]

theorem upTo_upTo (le : low ≤ high) (declarations : Declarations) :
    (declarations.upTo high).upTo low = declarations.upTo low := by
  simp only [upTo, filter_level_filter_level _ le]

end Declarations

theorem RuleSet.readLine?_cases (set : RuleSet) (site : Site) (l : Text)
    (declaration : RuleDeclaration) (next : Reported RuleSet)
    (declared : RuleDeclaration.ofLine? l = some declaration)
    (read : set.readLine? site l = some next) :
    next.1.rules = set.rules ∨
    ∃ rule : Rule, next.1.rules = set.rules ++ [rule] ∧
      rule.level = if declaration.isGlobal then 0 else site.depth := by
  simp only [readLine?, declared, Option.map_some, Option.some.injEq] at read
  subst read
  unfold declare
  cases set.rules.find? fun rule => rule.pattern == declaration.pattern with
  | some prior => exact Or.inl rfl
  | none =>
    cases declaration.pattern.matcher? declaration.ignoreCase with
    | none => exact Or.inl rfl
    | some matcher => exact Or.inr ⟨_, rfl, rfl⟩

namespace Environment

open Alias.Table

open Alias.Identity

open Declarations

def declarations (env : Environment) : Declarations where
  identities := env.aliases.identities
  namespaces := env.aliases.namespaces
  rules := env.rules.rules

theorem declarations_leave (env : Environment) (depth : Nat) (inside : env.depth = depth + 1) :
    env.leave.1.declarations = env.declarations.upTo depth := by
  unfold leave
  rw [inside]
  simp [declarations, upTo, RuleSet.purge]

theorem depth_leave (env : Environment) (depth : Nat) (inside : env.depth = depth + 1) :
    env.leave.1.depth = depth := by
  unfold leave
  rw [inside]

theorem upTo_declare (env : Environment) (ident : Alias.Identity) (auto : ident.scope = .auto)
    (depth : Nat) (inside : depth < env.depth) :
    (env.declare ident).declarations.upTo depth = env.declarations.upTo depth := by
  have aliases : (env.declare ident).aliases = (env.aliases.offer env.site ident).1 := rfl
  have rules : (env.declare ident).rules = env.rules := rfl
  simp only [upTo, declarations, aliases, rules]
  rcases env.aliases.offer_cases env.site ident with ⟨same, -⟩ | ⟨entry, hc, -, -, next⟩
  · rw [same]
  · have level : entry.identity.level = env.depth := by
      rw [Alias.Entry.compile?_identity hc, level, scope_declaredAt, auto]
      rfl
    have deeper : ¬entry.identity.level ≤ depth := by omega
    have kept := filter_insertBySize_of_not size
      (fun ident => ident.level ≤ depth) entry.identity env.aliases.identities
      (decide_eq_false deeper)
    have identities : (env.aliases.offer env.site ident).1.identities =
        insertBySize size entry.identity env.aliases.identities := by
      rw [next]
      exact map_insertBySize size Alias.Entry.identity entry env.aliases.entries
    rw [identities, kept, next]

theorem upTo_useNamespace (env : Environment) (n : Text) (depth : Nat)
    (inside : depth < env.depth) :
    (env.useNamespace n).declarations.upTo depth = env.declarations.upTo depth := by
  have namespaces : (env.aliases.addNamespace n env.depth).namespaces.filter
      (fun space => space.level ≤ depth) =
      env.aliases.namespaces.filter fun space => space.level ≤ depth := by
    unfold addNamespace
    dsimp only
    split
    · rfl
    · simp [inside]
  simp only [upTo, declarations, useNamespace, identities_addNamespace, namespaces]

theorem upTo_readRule? (env next : Environment) (l : Text) (declaration : RuleDeclaration)
    (declared : RuleDeclaration.ofLine? l = some declaration)
    (isLocal : declaration.isGlobal = false) (read : env.readRule? l = some next) (depth : Nat)
    (inside : depth < env.depth) :
    next.depth = env.depth ∧ next.declarations.upTo depth = env.declarations.upTo depth := by
  obtain ⟨reported, m, rfl⟩ := Option.map_eq_some_iff.mp read
  refine ⟨rfl, ?_⟩
  rcases env.rules.readLine?_cases env.site l declaration reported declared m with
    same | ⟨rule, rules, level⟩
  · simp only [declarations, note, same]
  · have deeper : ¬rule.level ≤ depth := by
      rw [level, isLocal]
      simpa [site] using inside
    simp only [upTo, declarations, note, rules]
    simp [deeper]

end Environment

inductive ScopeStep where
  | enter
  | leave
  /-- Declares an identity at the line that is being read. -/
  | declare (identity : Alias.Identity)
  /-- Declares the pattern rule of a line at the line that is being read. -/
  | declareRule (line : Text)
  | useNamespace (name : Text)

namespace ScopeStep

def run (env : Environment) : ScopeStep → Environment
  | .enter => env.enter
  | .leave => env.leave.1
  | .declare identity => env.declare identity
  | .declareRule line => (env.readRule? line).getD env
  | .useNamespace name => env.useNamespace name

def runAll (env : Environment) (steps : List ScopeStep) : Environment :=
  steps.foldl run env

def IsLocal : ScopeStep → Prop
  | .enter | .leave => False
  | .declare identity => identity.scope = .auto
  | .declareRule line =>
    ∃ declaration, RuleDeclaration.ofLine? line = some declaration ∧ declaration.isGlobal = false
  | .useNamespace _ => True

/-- Every block that is entered is left again, and all else is declared for the block around it. -/
inductive Balanced : List ScopeStep → Prop where
  | nil : Balanced []
  | declaring {step : ScopeStep} {rest : List ScopeStep} :
      step.IsLocal → Balanced rest → Balanced (step :: rest)
  | block {body rest : List ScopeStep} :
      Balanced body → Balanced rest → Balanced (.enter :: body ++ .leave :: rest)

theorem IsLocal.run_upTo {step : ScopeStep} (isLocal : step.IsLocal) (env : Environment)
    (depth : Nat) (inside : depth < env.depth) :
    (run env step).depth = env.depth ∧
      (run env step).declarations.upTo depth = env.declarations.upTo depth := by
  cases step with
  | enter => exact isLocal.elim
  | leave => exact isLocal.elim
  | declare ident => exact ⟨rfl, env.upTo_declare ident isLocal depth inside⟩
  | declareRule l =>
    obtain ⟨declaration, declared, isLocal⟩ := isLocal
    cases read : env.readRule? l with
    | none => simp [run, read]
    | some next =>
      have kept := env.upTo_readRule? next l declaration declared isLocal read depth inside
      simpa [run, read] using kept
  | useNamespace n => exact ⟨rfl, env.upTo_useNamespace n depth inside⟩

theorem runAll_block (env : Environment) (b rest : List ScopeStep) :
    runAll env (.enter :: b ++ .leave :: rest) = runAll (runAll env.enter b).leave.1 rest := by
  simp [runAll, run]

theorem leave_block (env : Environment) (b : List ScopeStep)
    (depth : (runAll env.enter b).depth = env.enter.depth)
    (kept : (runAll env.enter b).declarations.upTo env.depth = env.declarations.upTo env.depth) :
    (runAll env.enter b).leave.1.depth = env.depth ∧
      (runAll env.enter b).leave.1.declarations = env.declarations.upTo env.depth := by
  have inside : (runAll env.enter b).depth = env.depth + 1 := depth
  refine ⟨Environment.depth_leave _ _ inside, ?_⟩
  rw [Environment.declarations_leave _ _ inside, kept]

/-- Balanced operations inside a block leave the number of open blocks and what belongs to the
blocks around it. -/
theorem Balanced.runAll_upTo {steps : List ScopeStep} (balanced : Balanced steps)
    (env : Environment) (depth : Nat) (inside : depth < env.depth) :
    (runAll env steps).depth = env.depth ∧
      (runAll env steps).declarations.upTo depth = env.declarations.upTo depth := by
  induction balanced generalizing env depth with
  | nil => exact ⟨rfl, rfl⟩
  | @declaring step rest isLocal _ ih =>
    obtain ⟨sameDepth, kept⟩ := isLocal.run_upTo env depth inside
    obtain ⟨restDepth, restKept⟩ := ih (run env step) depth (by omega)
    exact ⟨restDepth.trans sameDepth, restKept.trans kept⟩
  | @block b rest _ _ bodyIH restIH =>
    -- the inner block is compared at its own depth, which lies inside the one asked for
    obtain ⟨bodyDepth, bodyKept⟩ := bodyIH env.enter env.depth (Nat.lt_succ_self env.depth)
    obtain ⟨left, purged⟩ := leave_block env b bodyDepth bodyKept
    obtain ⟨restDepth, restKept⟩ := restIH (runAll env.enter b).leave.1 depth (by omega)
    rw [runAll_block]
    refine ⟨restDepth.trans left, ?_⟩
    calc (runAll (runAll env.enter b).leave.1 rest).declarations.upTo depth
        = (runAll env.enter b).leave.1.declarations.upTo depth := restKept
      _ = (env.declarations.upTo env.depth).upTo depth := by rw [purged]
      _ = env.declarations.upTo depth := Declarations.upTo_upTo (Nat.le_of_lt inside) _

end ScopeStep

/-- A block leaves no trace: with everything in force declared at the depth of the environment or
further out, entering a block, declaring things in it and in blocks inside it, and leaving it gives
the same identities, namespaces and pattern rules in the same order. -/
theorem block_restores_declarations (env : Environment) (body : List ScopeStep)
    (within : env.declarations.AreWithin env.depth) (balanced : ScopeStep.Balanced body) :
    (ScopeStep.runAll env (.enter :: body ++ [.leave])).declarations = env.declarations ∧
      (ScopeStep.runAll env (.enter :: body ++ [.leave])).depth = env.depth := by
  obtain ⟨depth, kept⟩ := balanced.runAll_upTo env.enter env.depth (Nat.lt_succ_self env.depth)
  obtain ⟨left, purged⟩ := ScopeStep.leave_block env body depth kept
  rw [ScopeStep.runAll_block]
  exact ⟨purged.trans within.upTo_eq, left⟩

/-- An environment one block deep with an identity, a namespace and a pattern rule, and the inside
of a block that offers the name again, declares others and opens a block of its own. -/
theorem block_restores_declarations_nested :
    let outer := ScopeStep.runAll (Environment.start {}) [.declareRule "regex a b".toList, .enter,
      .declare { identifier := "x".toList, real := "y".toList }, .useNamespace "N".toList]
    let body : List ScopeStep := [.declare { identifier := "x".toList, real := "z".toList },
      .useNamespace "M".toList, .enter,
      .declare { identifier := "longer".toList, real := "l".toList },
      .declareRule "regex c d".toList, .leave, .declareRule "regex a e".toList]
    outer.declarations.AreWithin outer.depth ∧ ScopeStep.Balanced body ∧
      (ScopeStep.runAll outer (.enter :: body ++ [.leave])).declarations = outer.declarations := by
  intro outer body
  have within : outer.declarations.AreWithin outer.depth := by
    refine ⟨?_, ?_, ?_⟩ <;> decide
  have balanced : ScopeStep.Balanced body := by
    refine .declaring rfl (.declaring trivial (@ScopeStep.Balanced.block [_, _] [_] ?_ ?_))
    · exact .declaring rfl (.declaring ⟨_, rfl, rfl⟩ .nil)
    · exact .declaring ⟨_, rfl, rfl⟩ .nil
  exact ⟨within, balanced, (block_restores_declarations outer body within balanced).1⟩

end PrimePlus
