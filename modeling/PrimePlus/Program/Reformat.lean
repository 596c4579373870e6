import PrimePlus.Construct.Keyword
import PrimePlus.Layout
import PrimePlus.Lexical.Comment
import PrimePlus.Program.Segment

/-!
Laying out a generated program anew: one statement a line, blocks indented.
-/

namespace PrimePlus.Program

open Regex

def comparisonSigns : List (String × String) :=
  [(">=", "≥"), ("<=", "≤"), ("<>", "≠"), ("!=", "≠")]

def smallEndPattern : Regex :=
  all [edge, lit "end", edge]

def breakAfterPattern : Regex :=
  all [edge, anyLit ["THEN", "DO", "REPEAT", "ELSE", "DEFAULT", "CASE", "BEGIN", "IFERR"], edge]

def breakBeforePattern : Regex :=
  all [edge, anyLit ["ELSE", "END", "UNTIL", "DEFAULT", "BEGIN"], edge]

def respellAndBreak (code : Text) : Text :=
  let code := smallEndPattern.replaceAllWith (Construct.capitalize code) "END"
  let code := comparisonSigns.foldl
    (fun code sign => Text.replace code sign.1.toList sign.2.toList) code
  let code := breakAfterPattern.replaceAll code fun found => found.text ++ ['\n']
  breakBeforePattern.replaceAll code fun found => '\n' :: found.text

def commaPattern : Regex :=
  all [blanks, char ',', blanks]

def tidyStatement (statement : Text) : Text :=
  let statement := commaPattern.replaceAllWith (Lexical.collapseBlanks statement) ", "
  Text.trim (Layout.assignmentPattern.replaceAllWith statement " := ")

/-- The statements of parts that stand between semicolons, with the literals of a store. All but the
last part end with a semicolon; blank parts are dropped. -/
def statementsOfParts (store : Lexical.Store) : List Text → List Text
  | [] => []
  | part :: rest =>
    let statement := tidyStatement part
    let mark := if rest.isEmpty then [] else [';']
    if statement.isEmpty then statementsOfParts store rest
    else (Lexical.restore store statement ++ mark) :: statementsOfParts store rest

/-- A comment behind the last of several statements, or on a line of its own. -/
def addComment (comment : Text) : List Text → List Text
  | [] => [comment]
  | [last] => [last ++ ' ' :: comment]
  | statement :: rest => statement :: addComment comment rest

def statementsOf (line : Text) : List Text :=
  let (code, comment) := Lexical.splitComment line
  let (hidden, store) := Lexical.protect [] code
  let statements := (Text.splitOn '\n' (respellAndBreak hidden)).flatMap fun row =>
    statementsOfParts store (Lexical.splitTop ';' row)
  match comment with
  | some comment => addComment comment statements
  | none => statements

/-- The lines for statements when a number of blocks is open in front of them, and the number of
open blocks after them. -/
def layStatements (width : Nat) : Nat → List Text → List Text × Nat
  | depth, [] => ([], depth)
  | depth, statement :: rest =>
    let nesting := Lexical.Nesting.ofLine statement
    let after := nesting.depthAfter depth
    let gap := if 0 < depth && after = 0 then [[]] else []
    let (lines, final) := layStatements width after rest
    ((Layout.indent width (nesting.indentLevel depth) ++ statement) :: gap ++ lines, final)

def laySegments (width : Nat) : Nat → List Segment → List Text
  | _, [] => []
  | depth, .verbatim line :: rest => line :: laySegments width depth rest
  | depth, .code t :: rest =>
    let (lines, after) := layStatements width depth ((Text.lines t).flatMap statementsOf)
    lines ++ laySegments width after rest

def reformat (width : Nat) (t : Text) : Text :=
  Text.trimEnd (Text.join ['\n'] (laySegments width 0 (segments t))) ++ ['\n']

end PrimePlus.Program
