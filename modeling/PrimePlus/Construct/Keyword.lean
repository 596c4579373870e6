import PrimePlus.Regex.Search

/-!
Keywords in the spelling of the calculator, and short forms of control flow.
-/

namespace PrimePlus.Construct

open Regex

def smallWords : List Text :=
  ["begin", "return", "kill", "if", "then", "else", "xor", "or", "and", "not", "case", "default",
    "iferr", "ifte", "for", "from", "step", "downto", "to", "do", "while", "repeat", "until",
    "break", "continue", "export", "const", "local", "key", "log", "cos", "sin", "tan", "ln", "min",
    "max", "abs", "sqrt"].map String.toList

def smallWordPattern : Regex :=
  all [edge, plus (.one fun c => 'a' ≤ c && c ≤ 'z'), edge]

def capitalize (t : Text) : Text :=
  smallWordPattern.replaceAll t fun found =>
    if smallWords.contains found.text then found.text.map Char.toUpper else found.text

def baseLiteralPattern : Regex :=
  all [char '#', opt (.capture 1 (char '-')), .capture 2 (.seq digit (opt digit)),
    .capture 3 (oneOf "bodh"), char '(', .capture 4 (plus (oneOf "0123456789ABCDEFabcdef")),
    char ')']

def baseLiterals (t : Text) : Text :=
  baseLiteralPattern.replaceAll t fun found =>
    '#' :: (found.group 4).map Char.toUpper ++ ':' :: found.group 1 ++ found.group 2 ++
      found.group 3

def guardPattern : Regex :=
  all [edge, lit "guard", blanks1, .capture 1 (plusLazy notNewline), blanks1, lit "else", edge]

def guardAdvice : Text :=
  "guard is deprecated, use if ... then ... end;".toList

def ifDoPattern : Regex :=
  all [edge, .capture 1 (all [litAnyCase "if", blanks1, plusLazy notNewline]), blanks1,
    litAnyCase "do", blanks, back]

def leavingIfPattern : Regex :=
  all [edge, litAnyCase "if", blanks1, plus notNewline, blanks1, litAnyCase "then", blanks1,
    anyLitAnyCase ["return", "break", "continue"], edge, star (noneOf ";"), char ';', blanks, back]

def rangePattern : Regex :=
  all [blanks, lit "...", blanks]

def writeOut (line : Text) : Text :=
  let line := guardPattern.replaceAll line fun found =>
    "IF NOT(".toList ++ found.group 1 ++ ") THEN".toList
  let line := ifDoPattern.replaceFirst line fun found => found.group 1 ++ " THEN".toList
  let line := if leavingIfPattern.isMatch line then Text.trimEnd line ++ " END;".toList else line
  rangePattern.replaceAllWith line " TO "

def endWordPattern : Regex :=
  all [edge, any [.seq (litAnyCase "end") (opt (litAnyCase "if")), litAnyCase "wend",
    litAnyCase "next", litAnyCase "loop"], edge, blanks, opt (char ';')]

def endlessPattern : Regex :=
  all [front, .capture 1 blanks, lit "do", blanks, back]

def keyPattern : Regex :=
  all [front, .capture 1 blanks,
    .capture 2 (all [char 'K', opt (char 'S'), opt (char 'A'), char '_',
      .one fun c => ('A' ≤ c && c ≤ 'Z') || Unicode.isDecimal c,
      star (.one fun c => 'a' ≤ c && c ≤ 'z')]), blanks, back]

def respell (depth : Nat) (line : Text) : Text :=
  let line := if depth = 0 then line else writeOut line
  let line := (all [edge, lit "try", edge]).replaceAllWith line "IFERR"
  let line := (all [edge, lit "catch", edge]).replaceAllWith line "THEN"
  let line := endWordPattern.replaceAllWith line "END;"
  let line := endlessPattern.replaceFirst line fun found => found.group 1 ++ "WHILE 1 DO".toList
  let line := baseLiterals (capitalize line)
  if depth = 0 then
    keyPattern.replaceFirst line fun found =>
      found.group 1 ++ "KEY ".toList ++ found.group 2 ++ "()".toList
  else line

def keywords? (depth : Nat) (line : Text) : Option Text :=
  let respelled := respell depth line
  if respelled = line then none else some respelled

def hasGuard (depth : Nat) (line : Text) : Bool :=
  depth != 0 && guardPattern.isMatch line

end PrimePlus.Construct
