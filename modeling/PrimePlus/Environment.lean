import PrimePlus.Alias.Resolve
import PrimePlus.Config
import PrimePlus.File.System
import PrimePlus.Rule

/-!
What all stages of a compilation share.
-/

namespace PrimePlus

structure Environment where
  config : Config
  aliases : Alias.Table
  rules : RuleSet
  diagnostics : List Diagnostic := []
  depth : Nat := 0
  /-- The sources being read with the line reached in each, the innermost first. -/
  sources : List Location := []

namespace Environment

def start (config : Config) : Environment :=
  { config := config,
    aliases := Alias.Table.empty config.maxPasses,
    rules := RuleSet.empty config.maxPasses }

def location (env : Environment) : Location :=
  env.sources.head?.getD {}

def site (env : Environment) : Site :=
  ⟨env.location, env.depth⟩

def note (env : Environment) (diagnostics : List Diagnostic) : Environment :=
  { env with diagnostics := env.diagnostics ++ diagnostics }

def report (env : Environment) (severity : Severity) (message : Text) : Environment :=
  env.note [⟨severity, env.location, message⟩]

def append (env : Environment) (identity : Alias.Identity) : Environment × Bool :=
  let (aliases, taken, diagnostics) := env.aliases.offer env.site identity
  ({ env with aliases := aliases }.note diagnostics, taken)

def declare (env : Environment) (identity : Alias.Identity) : Environment :=
  (env.append identity).1

def readRule? (env : Environment) (line : Text) : Option Environment :=
  (env.rules.readLine? env.site line).map fun next =>
    { env with rules := next.1 }.note next.2

def useNamespace (env : Environment) (name : Text) : Environment :=
  { env with aliases := env.aliases.addNamespace name env.depth }

def enter (env : Environment) : Environment :=
  { env with depth := env.depth + 1 }

/-- Leave a block, with all that was declared in it; whether there was one to leave. -/
def leave (env : Environment) : Environment × Bool :=
  match env.depth with
  | 0 => (env.report .error "unexpected END".toList, false)
  | depth + 1 =>
    ({ env with
      depth := depth,
      aliases := env.aliases.purge depth,
      rules := env.rules.purge depth }, true)

def pushSource (env : Environment) (path : Text) : Environment :=
  { env with sources := ⟨path, 0⟩ :: env.sources }

def popSource (env : Environment) : Environment :=
  { env with sources := env.sources.tail }

def nextLine (env : Environment) : Environment :=
  match env.sources with
  | [] => env
  | source :: outer => { env with sources := { source with line := source.line + 1 } :: outer }

theorem nextLine_eq (env : Environment) :
    env.nextLine = { env with sources := env.nextLine.sources } := by
  unfold nextLine
  split <;> rfl

@[simp] theorem config_nextLine (env : Environment) : env.nextLine.config = env.config := by
  rw [nextLine_eq]

def source? (env : Environment) : Option Text :=
  env.sources.head?.map Location.path

def directory? (env : Environment) : Option Text :=
  env.source?.bind Path.parent?

def isReading (env : Environment) (files : FileSystem) (path : Text) : Bool :=
  env.sources.any fun source => files.isSame source.path path

def resolveAliases (env : Environment) (t : Text) : Text × Environment :=
  let resolved := env.aliases.resolve env.location t
  (resolved.1, env.note resolved.2)

def resolveRules (env : Environment) (t : Text) : Text × Environment :=
  let resolved := env.rules.resolve env.depth env.location t
  (resolved.1, env.note resolved.2)

def foldInline (env : Environment) (t : Text) : Text × Environment :=
  let folded := Expression.reported env.location (Expression.foldInline t)
  (folded.1, env.note folded.2)

def foldWhole (env : Environment) (t : Text) : Text × Environment :=
  let folded := Expression.reported env.location (Expression.foldWhole t)
  (folded.1, env.note folded.2)

end Environment

end PrimePlus
