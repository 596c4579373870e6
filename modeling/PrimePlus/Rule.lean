import PrimePlus.Comparison
import PrimePlus.Error
import PrimePlus.Expression.Fold
import PrimePlus.Pattern
import PrimePlus.Settle

/-!
Pattern rules: substitutions that a program declares by a line such as

    regex @ >= 1 `(\w+)\+\+` $1 := $1 + 1

A rule is tried where its gate admits the number of open blocks, and lives as long as the block that
declares it, or with `@` as long as the program.
-/

namespace PrimePlus

open Regex

/-- The numbers of open blocks under which a rule is tried. -/
inductive Gate where
  | always
  | exactly (n : Nat)
  | compare (op : Comparison) (n : Nat)
  deriving Repr, DecidableEq

def Gate.admits (depth : Nat) : Gate → Bool
  | .always => true
  | .exactly n => depth == n
  | .compare op n => op.holdsNat depth n

structure Rule where
  pattern : Pattern
  matcher : Matcher
  replacement : Text
  ignoreCase : Bool
  level : Nat
  gate : Gate
  location : Location

/-- The line with every match of a rule replaced, where the rule is admitted and matches. In the
replacement `__SCOPE__` stands for the number of open blocks. -/
def Rule.fire? (rule : Rule) (depth : Nat) (line : Text) : Option Text :=
  if rule.gate.admits depth && rule.matcher.finder.isMatch line then
    let template := Text.replace rule.replacement "__SCOPE__".toList (Text.ofNat depth)
    some (rule.matcher.replaceAll line template)
  else none

structure RuleDeclaration where
  isGlobal : Bool
  gate : Option Gate
  pattern : Pattern
  ignoreCase : Bool
  replacement : Text
  deriving Repr, DecidableEq

namespace RuleDeclaration

/-- The line that declares a rule: `@`, a gate, a pattern, a mark for ignoring case, and the
replacement. -/
def linePattern : Regex :=
  all [front, blanks, lit "regex", blanks1, opt (.capture 1 (.seq (char '@') blanks)),
    opt (all [.capture 2 (anyLit ["<=", ">=", "==", "!=", "<>", "≤", "≥", "≠", "<", ">", "="]),
      blanks, .capture 3 (plus digit), blanks1]),
    .capture 4 (.alt
      (all [char '\x60', star (.alt (noneOf "`\\") (.seq (char '\\') notNewline)), char '\x60'])
      (plus (.one fun c => !Unicode.isBlank c && c != '\x60'))),
    opt (.capture 5 (char 'i')),
    opt (.seq blanks1 (.capture 6 (starLazy notNewline))), blanks, back]

/-- The declaration that a line holds, if it is one. A gate whose number does not fit a machine word
is no gate. -/
def ofLine? (line : Text) : Option RuleDeclaration :=
  (linePattern.find? line).map fun found =>
    { isGlobal := (found.group? 1).isSome,
      gate := do
        let op ← Comparison.ofSign? (← found.group? 2)
        let n ← Text.toNat? (← found.group? 3)
        if Numeral.fitsWord n then some (.compare op n) else none,
      pattern := Pattern.parse (found.group 4),
      ignoreCase := (found.group? 5).isSome,
      replacement := found.group 6 }

end RuleDeclaration

structure RuleSet where
  /-- How many passes a substitution may take. -/
  maxPasses : Nat
  somePass : 0 < maxPasses
  rules : List Rule := []

inductive RuleRejection where
  | redefinition (pattern : Pattern) (prior : Location)
  | invalid (pattern : Pattern)
  deriving Repr, DecidableEq

def RuleRejection.diagnostic (location : Location) : RuleRejection → Diagnostic
  | .redefinition pattern prior =>
    ⟨.warning, location, "redefinition of regex `".toList ++ pattern.text ++
      "`, previous definition at ".toList ++ prior.text⟩
  | .invalid pattern => (Error.invalidPattern pattern.source).diagnostic location

namespace RuleSet

def empty (maxPasses : Nat) : RuleSet :=
  { maxPasses := max 1 maxPasses, somePass := zero_lt_max_one maxPasses }

def declare (set : RuleSet) (site : Site) (declaration : RuleDeclaration) :
    Except RuleRejection RuleSet :=
  match set.rules.find? fun rule => rule.pattern == declaration.pattern with
  | some prior => .error (.redefinition declaration.pattern prior.location)
  | none =>
    match declaration.pattern.matcher? declaration.ignoreCase with
    | none => .error (.invalid declaration.pattern)
    | some matcher =>
      let level := if declaration.isGlobal then 0 else site.depth
      let usual := if declaration.isGlobal then .always else .exactly level
      .ok { set with
        rules := set.rules ++ [{
          pattern := declaration.pattern,
          matcher := matcher,
          replacement := declaration.replacement,
          ignoreCase := declaration.ignoreCase,
          level := level,
          gate := declaration.gate.getD usual,
          location := site.location }] }

/-- The set after a line, where the line declares a rule. A rejected rule changes nothing. -/
def readLine? (set : RuleSet) (site : Site) (line : Text) : Option (Reported RuleSet) :=
  (RuleDeclaration.ofLine? line).map fun declaration =>
    match set.declare site declaration with
    | .ok next => (next, [])
    | .error rejection => (set, [rejection.diagnostic site.location])

def purge (set : RuleSet) (depth : Nat) : RuleSet :=
  { set with rules := set.rules.filter fun rule => rule.level ≤ depth }

/-- One pass: every rule in order, each on the text that the one before has left. Expressions quoted
in a text that a rule has changed are folded at once. -/
def resolveOnce (set : RuleSet) (depth : Nat) (location : Location) (line : Text) :
    Reported Text :=
  set.rules.foldl (fun done rule =>
    match rule.fire? depth done.1 with
    | none => done
    | some changed =>
      let folded := Expression.reported location (Expression.foldInline changed)
      (folded.1, done.2 ++ folded.2)) (line, [])

def resolve (set : RuleSet) (depth : Nat) (location : Location) (line : Text) : Reported Text :=
  if set.rules.isEmpty then (line, [])
  else
    let settled := settle (set.resolveOnce depth location) set.maxPasses line
    let looping := if settled.isFixed then [] else
      [(Error.substitutionLoop line set.maxPasses).diagnostic location]
    (settled.text, settled.diagnostics ++ looping)

end RuleSet

end PrimePlus
