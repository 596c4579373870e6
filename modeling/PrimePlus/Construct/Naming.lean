import PrimePlus.Environment
import PrimePlus.Numeral.Base32

/-!
Declarations that name a variable, a function or a parameter twice. `real:name` declares `real` and
makes `name` stand for it; with `auto:name`, or a name that the calculator cannot spell, the real
name is generated: `var count:n, auto:total := 0;` becomes `LOCAL count, v1 := 0;`.
-/

namespace PrimePlus.Construct

open Regex

inductive NameClass where
  | function
  | parameter
  | global
  | inner
  deriving Repr, DecidableEq

def NameClass.letters : NameClass → Text
  | .function => "fn".toList
  | .parameter => "p".toList
  | .global => "g".toList
  | .inner => "v".toList

/-- The last number given to a generated name of each kind. -/
structure Naming where
  functions : Nat := 0
  parameters : Nat := 0
  globals : Nat := 0
  inner : Nat := 0
  deriving Repr, DecidableEq

namespace Naming

def last (naming : Naming) : NameClass → Nat
  | .function => naming.functions
  | .parameter => naming.parameters
  | .global => naming.globals
  | .inner => naming.inner

def setLast (naming : Naming) (n : Nat) : NameClass → Naming
  | .function => { naming with functions := n }
  | .parameter => { naming with parameters := n }
  | .global => { naming with globals := n }
  | .inner => { naming with inner := n }

def numbered (cls : NameClass) (n : Nat) : Text :=
  cls.letters ++ Numeral.base32 n

def generate (naming : Naming) (cls : NameClass) (aliases : Alias.Table) : Text × Naming :=
  let n := aliases.nextFree (numbered cls) (naming.last cls)
  (numbered cls n, naming.setLast n cls)

def pairPattern : Regex :=
  all [front, .capture 1 letterName, blanks, char ':', blanks,
    .capture 2 (.seq dottedName (star (.seq (lit "::") dottedName))), back]

def foreignPattern : Regex :=
  all [front, name, .alt (lit "::") (char '.'), star (.one fun c =>
    Unicode.isWordChar c || c == '.' || c == ':'), back]

/-- The real name of a declaration, the name that is to stand for it if there is one, and the state
after. A name that is in the table keeps its real name. -/
def declared (naming : Naming) (cls : NameClass) (aliases : Alias.Table) (head : Text) :
    Text × Option Text × Naming :=
  let head := Text.trim head
  match pairPattern.find? head with
  | some found =>
    let identifier := found.group 2
    match aliases.get? identifier with
    | some prior => (prior.real, none, naming)
    | none =>
      if found.group 1 = "auto".toList then
        let (real, naming) := naming.generate cls aliases
        (real, some identifier, naming)
      else (found.group 1, some identifier, naming)
  | none =>
    if foreignPattern.isMatch head then
      match aliases.get? head with
      | some prior => (prior.real, none, naming)
      | none =>
        let (real, naming) := naming.generate cls aliases
        (real, some head, naming)
    else (head, none, naming)

/-- Cut an item of a declaration at its assignment, given the character before the text: an equals
sign after a colon, or one that belongs to no comparison. The colon stays in the first part. -/
def cutInitial? (prev : Option Char) : Text → Option (Text × Text)
  | [] => none
  | c :: cs =>
    let isAssignment := prev == some ':' ||
      (cs.head? != some '=' && !prev.any ("<>!=".toList.contains ·))
    if c = '=' && isAssignment then some ([], cs)
    else (cutInitial? (some c) cs).map fun (lead, tail) => (c :: lead, tail)

def splitInitial (item : Text) : Text × Option Text :=
  match cutInitial? none item with
  | some (lead, value) =>
    (Text.trim (if lead.getLast? = some ':' then lead.dropLast else lead), some value)
  | none => (Text.trim item, none)

def variablesPattern : Regex :=
  all [front, .capture 1 blanks, .capture 2 (anyLitAnyCase ["var", "local", "const"]), blanks1,
    .capture 3 (star notNewline), back]

def functionStartPattern : Regex :=
  all [front, letterOrUnderscore, star (.one fun c =>
    Unicode.isWordChar c || c == '.' || c == ':' || Unicode.isBlank c), char '(']

def variableItems (cls : NameClass) :
    Naming → Environment → List Text → List Text × Naming × Environment
  | naming, env, [] => ([], naming, env)
  | naming, env, item :: rest =>
    let (head, value) := splitInitial item
    if head.isEmpty then variableItems cls naming env rest
    else
      let (real, identifier, naming) := naming.declared cls env.aliases head
      let env := match identifier with
        | some identifier => env.declare { identifier := identifier, real := real, kind := .var }
        | none => env
      let written := match value with
        | some value => real ++ " := ".toList ++ Text.trim value
        | none => real
      let (items, naming, env) := variableItems cls naming env rest
      (written :: items, naming, env)

def variables? (naming : Naming) (env : Environment) (line : Text) :
    Option (Text × Naming × Environment) :=
  match variablesPattern.find? line with
  | none => none
  | some found =>
    if env.depth = 0 && functionStartPattern.isMatch (found.group 3) then none
    else
      let word := if (found.group 2).map Char.toLower = "const".toList then "CONST " else "LOCAL "
      let (first, rest) := match Lexical.splitTop ';' (found.group 3) with
        | [] => ([], [])
        | first :: rest => (first, rest)
      let cls := if env.depth = 0 then NameClass.global else NameClass.inner
      let (items, naming, env) := variableItems cls naming env (Lexical.splitTop ',' first)
      let tail := if rest.isEmpty then [] else ';' :: Text.join [';'] rest
      some (found.group 1 ++ word.toList ++ Text.join ", ".toList items ++ tail, naming, env)

def functionPattern : Regex :=
  all [front, .capture 1 blanks,
    opt (.capture 2 (.seq (anyLitAnyCase ["export", "local"]) blanks1)),
    .capture 3 (all [dottedName, opt (all [blanks, char ':', blanks, dottedName]),
      star (.seq (lit "::") dottedName)]),
    blanks, char '(', .capture 4 (star (noneOf "()")), char ')', .capture 5 (star notNewline), back]

/-- The parameters of a function in the spelling of the calculator. The parameters of a function
that is only announced get no identities. -/
def parameterNames (isForward : Bool) :
    Naming → Environment → List Text → List Text × Naming × Environment
  | naming, env, [] => ([], naming, env)
  | naming, env, parameter :: rest =>
    if Text.isBlankText parameter then parameterNames isForward naming env rest
    else
      let (real, identifier, naming) := naming.declared .parameter env.aliases parameter
      let env := match identifier, isForward with
        | some identifier, false =>
          env.declare
            { identifier := identifier, real := real, kind := .argument, scope := .level 1 }
        | _, _ => env
      let (names, naming, env) := parameterNames isForward naming env rest
      (real :: names, naming, env)

def hasNaming (t : Text) : Bool :=
  t.any fun c => c == ':' || c == '.'

def header? (naming : Naming) (env : Environment) (line : Text) :
    Option (Text × Naming × Environment) :=
  if env.depth != 0 then none
  else match functionPattern.find? line with
    | none => none
    | some found =>
      if !hasNaming (found.group 3) && !hasNaming (found.group 4) then none
      else
        let tail := found.group 5
        let (real, identifier, naming) := naming.declared .function env.aliases (found.group 3)
        let env := match identifier with
          | some identifier =>
            env.declare
              { identifier := identifier, real := real, kind := .function, scope := .level 0 }
          | none => env
        let isForward := (Text.trimEnd tail).getLast? == some ';'
        let (names, naming, env) := parameterNames isForward (naming.setLast 0 .parameter) env
          (Lexical.splitTop ',' (found.group 4))
        let word := match found.group? 2 with
          | some word => (Text.trim word).map Char.toUpper ++ [' ']
          | none => []
        some (found.group 1 ++ word ++ real ++ '(' :: Text.join [','] names ++ ')' :: tail,
          naming, env)

def lower? (naming : Naming) (env : Environment) (line : Text) :
    Option (Text × Naming × Environment) :=
  (naming.variables? env line).orElse fun _ => naming.header? env line

end Naming

end PrimePlus.Construct
