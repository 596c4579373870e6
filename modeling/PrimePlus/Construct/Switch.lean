import PrimePlus.Lexical.Bracket
import PrimePlus.Pattern

/-!
Switches. `switch subject` becomes `CASE`, and a line `case value do` in its body becomes `IF
subject == value THEN`. A subject that is not a plain name is stored in a variable first.
-/

namespace PrimePlus.Construct

open Regex

structure OpenSwitch where
  subject : Text
  level : Nat
  deriving Repr, DecidableEq

structure Switches where
  opened : List OpenSwitch := []
  stored : Nat := 0
  deriving Repr, DecidableEq

def switchPattern : Regex :=
  all [front, .capture 1 blanks, lit "switch", blanks1, .capture 2 (plus notNewline), back]

def casePattern : Regex :=
  all [edge, lit "case", blanks1, .capture 1 (plusLazy notNewline), blanks1, lit "do", edge]

def switchEndPattern : Regex :=
  all [front, blanks, litAnyCase "end", blanks, opt (char ';'), blanks, back]

def branches? (subject t : Text) : Option Text :=
  if casePattern.isMatch t then
    some (casePattern.replaceAll t fun found =>
      "IF ".toList ++ subject ++ " == ".toList ++ found.group 1 ++ " THEN".toList)
  else none

namespace Switches

/-- The lines that a switch starts with and the switches that are open after them, given its
indentation, its subject and its first branch. -/
def start (switches : Switches) (depth : Nat) (indent expression rest : Text) :
    Text × Switches :=
  let isName := Pattern.isPlainName expression
  let stored := if isName then switches.stored else switches.stored + 1
  let subject := if isName then expression else "sw".toList ++ Text.ofNat stored
  let store := if isName then [] else
    indent ++ "LOCAL ".toList ++ subject ++ " := ".toList ++ expression ++ ";\n".toList
  let first := if rest.isEmpty then [] else
    '\n' :: indent ++ (branches? subject rest).getD rest
  (store ++ indent ++ "CASE".toList ++ first, ⟨⟨subject, depth + 1⟩ :: switches.opened, stored⟩)

/-- The new line where a line that starts no switch holds a branch, and the switches that are open
after it. A switch whose block is no longer open is forgotten. -/
def proceed (switches : Switches) (depth : Nat) (line : Text) : Option Text × Switches :=
  let opened := switches.opened.filter fun entry => entry.level ≤ depth
  match opened with
  | [] => (none, { switches with opened := [] })
  | current :: outer =>
    if current.level != depth then (none, { switches with opened := opened })
    else if switchEndPattern.isMatch line then (none, { switches with opened := outer })
    else (branches? current.subject line, { switches with opened := opened })

def apply (switches : Switches) (depth : Nat) (line : Text) : Option Text × Switches :=
  if depth = 0 then (none, switches)
  else match switchPattern.find? line with
    | some found =>
      match Lexical.splitTop ';' (found.group 2) with
      | [] => (none, switches)
      | expression :: rest =>
        let expression := Text.trim expression
        if expression.isEmpty then (none, switches)
        else
          let (line, switches) := switches.start depth (found.group 1) expression
            (Text.trim (Text.join [';'] rest))
          (some line, switches)
    | none => switches.proceed depth line

end Switches

end PrimePlus.Construct
