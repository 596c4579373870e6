import PrimePlus.Directive

/-!
Statements that give a text another name, `def text name(parameters);`, and `undef name;`.
-/

namespace PrimePlus.Construct

open Regex

def removalPattern : Regex :=
  all [front, lit "undef", blanks1,
    .capture 1 (.seq letterOrUnderscore (star (.one fun c =>
      Unicode.isWordChar c || c == '.' || c == ':'))),
    blanks, char ';', back]

/-- A statement that gives a text a name: the text, the name or a pattern between backticks,
parameters, and a mark of deprecation with advice. -/
def definitionPattern : Regex :=
  all [front, lit "def", blanks1, .capture 1 (plusLazy notNewline), blanks1,
    .capture 2 (.alt (all [char '\x60', plus (noneOf "`"), char '\x60'])
      (.seq dottedName (star (.seq (lit "::") dottedName)))),
    opt (all [char '(', .capture 3 (star (.one fun c =>
      c.isAlpha || c == '_' || Unicode.isBlank c || c == ',')), char ')']),
    blanks,
    opt (.capture 4 (.seq (lit "@deprecated")
      (opt (all [blanks1, char '"', .capture 5 (star (noneOf "\"")), char '"'])))),
    blanks, char ';', back]

def definition? (env : Environment) (line : Text) : Option Environment :=
  let line := Text.trim line
  match removalPattern.find? line with
  | some found => some { env with aliases := env.aliases.remove (found.group 1) }
  | none =>
    (definitionPattern.find? line).map fun found =>
      env.declare
        { identifier := found.group 2,
          real := found.group 1,
          kind := .definition,
          parameters := Directive.listedNames (found.group 3),
          deprecated := (found.group? 4).map fun _ => found.group 5 }

end PrimePlus.Construct
