import PrimePlus.Regex.Search

/-!
Operators and constants in the spelling of the calculator.
-/

namespace PrimePlus.Construct

open Regex

/-- Every equals sign that belongs to no other operator written as `:=`, given the character before
the text. -/
def assignFrom (prev : Option Char) : Text → Text
  | [] => []
  | c :: cs =>
    let belongs := prev.any (":<>!=".toList.contains ·) || cs.head? == some '='
    if c = '=' && !belongs then ':' :: c :: assignFrom (some c) cs
    else c :: assignFrom (some c) cs

def assignments (t : Text) : Text :=
  assignFrom none t

/-- Every exclamation mark written as a word, apart from the words around it. The arguments are the
character written last and whether blanks are to be passed over. -/
def negateFrom (last : Option Char) (passing : Bool) : Text → Text
  | [] => []
  | c :: cs =>
    if c = '!' then
      let gap := if last.all fun c => c == ' ' || c == '(' then [] else [' ']
      gap ++ "NOT ".toList ++ negateFrom (some ' ') true cs
    else if passing && Unicode.isBlank c then negateFrom last true cs
    else c :: negateFrom (some c) false cs

def negations (t : Text) : Text :=
  negateFrom none false t

def conversion (type : String) : Regex :=
  all [lit type, blanks, char '(']

def signs : List (String × String) :=
  [(">=", "≥"), ("<=", "≤"), ("!=", "≠"), ("<>", "≠"), ("=>", "▶")]

/-- Whether a name can start among the characters of a word just read, which are given with the last
one first. -/
def startsEarlier : Text → Bool
  | [] => false
  | c :: cs => c.isAlpha || c == '_' || (Unicode.isWordChar c && startsEarlier cs)

/-- The first place of a word at which a name can start. What follows the word decides whether a
name inside it is assigned to, so the later places need not be tried. -/
def nameStart : Regex :=
  .assert fun cursor =>
    cursor.nextIs (fun c => c.isAlpha || c == '_') && !startsEarlier cursor.before

def updatePattern : Regex :=
  all [nameStart, .capture 1 (.seq name (star (all [char '[', star (noneOf "]"), char ']']))),
    blanks, .capture 2 (oneOf "-+*/%"), char '=']

def updateImage (found : Match) : Text :=
  found.group 1 ++ " := ".toList ++ found.group 1 ++ ' ' :: found.group 2

def spacedOperator (operator : String) : Regex :=
  all [blanks, lit operator, blanks]

def wordOperators : List (String × String) :=
  [("%", " MOD "), ("&&", " AND "), ("||", " OR "), ("^^", " XOR ")]

def constants : List (String × String) :=
  [("true", "1"), ("false", "0"), ("pi", "π")]

def operators (t : Text) : Text :=
  let t := (conversion "<int>").replaceAllWith t "IP("
  let t := (conversion "<string>").replaceAllWith t "STRING("
  let t := signs.foldl (fun t sign => Text.replace t sign.1.toList sign.2.toList) t
  let t := updatePattern.replaceAll t updateImage
  let t := wordOperators.foldl (fun t entry => (spacedOperator entry.1).replaceAllWith t entry.2) t
  let t := negations t
  let t := constants.foldl
    (fun t entry => (all [edge, lit entry.1, edge]).replaceAllWith t entry.2) t
  assignments t

def operators? (line : Text) : Option Text :=
  let respelled := operators line
  if respelled = line then none else some respelled

end PrimePlus.Construct
