import PrimePlus.Environment

/-!
Statements that name a piece of text, `alias [@]name := text;`, and statements that take a namespace
into use or out of it, `using namespace name;` and `remove namespace name;`.
-/

namespace PrimePlus.Construct

open Regex

def qualifiedName : Regex :=
  .seq dottedName (star (.seq (lit "::") name))

def synonymPattern : Regex :=
  all [front, lit "alias", blanks1, opt (.capture 1 (.seq (char '@') blanks)),
    .capture 2 qualifiedName, blanks, lit ":=", blanks, .capture 3 (plusLazy notNewline), blanks,
    char ';', back]

/-- The environment after a line that names a piece of text, for the whole program where the name
follows `@` and for the block otherwise. -/
def synonym? (env : Environment) (line : Text) : Option Environment :=
  (synonymPattern.find? (Text.trim line)).map fun found =>
    env.declare
      { identifier := found.group 2,
        real := found.group 3,
        kind := .synonym,
        scope := .level (if (found.group? 1).isSome then 0 else env.depth) }

def namespacePattern : Regex :=
  all [front, .capture 1 (anyLit ["using", "remove"]), blanks1, lit "namespace", blanks1,
    .capture 2 (.seq name (star (.seq (lit "::") name))), blanks, char ';', back]

def namespaceUse? (env : Environment) (line : Text) : Option Environment :=
  (namespacePattern.find? (Text.trim line)).map fun found =>
    if found.group 1 = "using".toList then env.useNamespace (found.group 2)
    else { env with aliases := env.aliases.removeNamespace (found.group 2) }

end PrimePlus.Construct
