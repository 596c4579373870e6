import PrimePlus.Lexical.Block
import PrimePlus.Lexical.Bracket
import PrimePlus.Lexical.Literal
import PrimePlus.Regex.Search

/-!
The layout of a generated program: one statement a line, indented by the number of open blocks.
-/

namespace PrimePlus.Layout

open Regex

def indent (width level : Nat) : Text :=
  List.replicate (level * width) ' '

def assignmentPattern : Regex :=
  all [blanks, lit ":=", blanks]

def beforeSeparatorPattern : Regex :=
  .seq blanks1 (.capture 1 (oneOf ";,)"))

def afterOpeningPattern : Regex :=
  .seq (char '(') blanks1

def tidy (line : Text) : Text :=
  let line := assignmentPattern.replaceAllWith line " := "
  let line := beforeSeparatorPattern.replaceAll line fun found => found.group 1
  Text.trim (afterOpeningPattern.replaceAllWith line "(")

/-- The statements of parts that stand between semicolons. All but the last part end with one; blank
parts are dropped. -/
def statementsOfParts : List Text → List Text
  | [] => []
  | [last] => if Text.isBlankText last then [] else [Text.trim last]
  | part :: rest =>
    if Text.isBlankText part then statementsOfParts rest
    else (Text.trim part ++ [';']) :: statementsOfParts rest

def statements (line : Text) : List Text :=
  (Text.splitOn '\n' line).flatMap fun row =>
    statementsOfParts (Lexical.splitTop ';' (tidy row))

def linesFrom (width : Nat) : Nat → List Text → List Text
  | _, [] => []
  | depth, statement :: rest =>
    let nesting := Lexical.Nesting.ofLine statement
    (indent width (nesting.indentLevel depth) ++ statement) ::
      linesFrom width (nesting.depthAfter depth) rest

def withComment (comment : Option Text) : List Text → List Text
  | [] => []
  | [last] => [last ++ (comment.map fun comment => ' ' :: comment).getD []]
  | line :: rest => line :: withComment comment rest

/-- The lines of a generated program for a line whose literals are in a store, when a number of
blocks is open in front of it. -/
def lay (width depth : Nat) (store : Lexical.Store) (comment : Option Text) (line : Text) :
    List Text :=
  withComment comment ((linesFrom width depth (statements line)).map (Lexical.restore store))

end PrimePlus.Layout
