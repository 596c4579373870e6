import PrimePlus.Text.Basic

/-!
Brackets, and the parts of a text between separators that stand outside all of them.
-/

namespace PrimePlus.Lexical

/-- The number of characters before the parenthesis that closes the outermost one opened in a text,
when `depth` parentheses are open in front of it. -/
def closingOffset? : Nat → Text → Option Nat
  | _, [] => none
  | depth, c :: cs =>
    if c = '(' then (closingOffset? (depth + 1) cs).map (· + 1)
    else if c = ')' then
      match depth with
      | 0 => none
      | 1 => some 0
      | depth + 2 => (closingOffset? (depth + 1) cs).map (· + 1)
    else (closingOffset? depth cs).map (· + 1)

/-- What a text holds between its first character, an opening parenthesis, and the parenthesis that
closes it, and what follows that. -/
def cutParens? (t : Text) : Option (Text × Text) :=
  (closingOffset? 0 t).map fun n => ((t.take n).drop 1, t.drop (n + 1))

def bracketStep (c : Char) : Int :=
  if c == '(' || c == '[' || c == '{' then 1
  else if c == ')' || c == ']' || c == '}' then -1
  else 0

def consHead (c : Char) : List Text → List Text
  | [] => [[c]]
  | part :: parts => (c :: part) :: parts

/-- The parts between separators outside brackets, when `depth` brackets are open in front. -/
def splitTopFrom (sep : Char) (depth : Int) : Text → List Text
  | [] => [[]]
  | c :: cs =>
    if c = sep && depth = 0 then [] :: splitTopFrom sep depth cs
    else consHead c (splitTopFrom sep (depth + bracketStep c) cs)

def splitTop (sep : Char) (t : Text) : List Text :=
  splitTopFrom sep 0 t

/-- The argument that is being read, given in reverse, and those behind it, when `depth` brackets
are open. -/
def argumentsFrom (depth : Int) (current : Text) : Text → List Text
  | [] => [current.reverse]
  | c :: cs =>
    if ['(', '[', '{'].contains c then argumentsFrom (depth + 1) (c :: current) cs
    else if [')', ']', '}'].contains c then argumentsFrom (depth - 1) (c :: current) cs
    else if c = ',' && depth = 0 then current.reverse :: argumentsFrom depth [] cs
    else argumentsFrom depth (c :: current) cs

/-- The arguments of a call, given what its parentheses hold; a blank text holds none. -/
def splitArguments (t : Text) : List Text :=
  if Text.isBlankText t then [] else argumentsFrom 0 [] t

end PrimePlus.Lexical
