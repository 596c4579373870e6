import PrimePlus.Fresh
import PrimePlus.Lexical.Block
import PrimePlus.Lexical.Bracket
import PrimePlus.Lexical.Comment
import PrimePlus.Lexical.Literal
import PrimePlus.Numeral.Base32
import PrimePlus.Program.Segment
import PrimePlus.Regex.Search
import PrimePlus.Text.Words

/-!
Making a generated program small: no comments, no layout, and short local names.
-/

namespace PrimePlus.Program

open Regex
open Unicode (isBlank isNameChar)

def localsPattern : Regex :=
  all [edge, lit "LOCAL", blanks1, .capture 1 (star (noneOf ";"))]

def localNamePattern : Regex :=
  all [front, blanks, .capture 1 name]

def shortVariablePattern : Regex :=
  all [front, char 'v', plus digit, back]

def declaredLocals (block : Text) : List Text :=
  (localsPattern.findAll block).flatMap fun found =>
    (Lexical.splitTop ',' (found.group 1)).filterMap fun item =>
      (localNamePattern.find? item).map fun found => found.group 1

/-- Renamings for names in order, and the number given last. A name that is kept or renamed already
is passed over; `numbered` gives the new name for a number, which must not be used. -/
def renamingsFrom (keeps : Text → Bool) (numbered : Nat → Text) (used : List Text) :
    Nat → List (Text × Text) → List Text → List (Text × Text)
  | _, renamings, [] => renamings
  | last, renamings, name :: rest =>
    if keeps name || renamings.any fun entry => entry.1 == name then
      renamingsFrom keeps numbered used last renamings rest
    else
      let n := nextFree (fun n => used.contains (numbered n)) used.length last
      renamingsFrom keeps numbered used n (renamings ++ [(name, numbered n)]) rest

/-- The renamings of the local variables of a block. Names of one or two characters are kept. -/
def variableRenamings (block : Text) : List (Text × Text) :=
  renamingsFrom (fun name => name.length < 3 || shortVariablePattern.isMatch name)
    (fun n => 'v' :: Text.ofNat n) (Text.words block) 0 [] (declaredLocals block)

def shortenBlock (block : Text) : Text :=
  Text.mapWords (Text.renamed (variableRenamings block)) block

def shortenFrom (cursor : Nat) (t : Text) : List (Nat × Nat) → Text
  | [] => t
  | (start, stop) :: rest =>
    t.take (start - cursor) ++ shortenBlock ((t.take (stop - cursor)).drop (start - cursor)) ++
      shortenFrom stop (t.drop (stop - cursor)) rest

def shortenVariables (t : Text) : Text :=
  shortenFrom 0 t (Lexical.outerBlocks t)

/-- A text without blanks but line feeds, except for one between words and between a word and a
parenthesis. The arguments are the character written last and whether blanks were passed. -/
def squeezeFrom (last : Option Char) (pending : Bool) : Text → Text
  | [] => []
  | c :: cs =>
    if isBlank c && c != '\n' then squeezeFrom last true cs
    else
      let gap := pending && (isNameChar c || c == '(') && last.any isNameChar
      (if gap then [' '] else []) ++ c :: squeezeFrom (some c) false cs

def squeeze (t : Text) : Text :=
  squeezeFrom none false t

def hasOperand (t : Text) : Bool :=
  (t.dropWhile (· == ' ')).head?.any fun c => c.isAlphanum || c == '.'

def setMinusFrom : Nat → Text → Text
  | _, [] => []
  | skip + 1, _ :: cs => setMinusFrom skip cs
  | 0, c :: cs =>
    if "-+*/".toList.contains c && cs.head? == some '-' && hasOperand (cs.drop 1) then
      c :: " -".toList ++ setMinusFrom 1 cs
    else if c = '-' && cs.head? == some ' ' && hasOperand cs then
      c :: setMinusFrom (cs.takeWhile (· == ' ')).length cs
    else c :: setMinusFrom 0 cs

/-- A text in which a minus sign stands right before its operand, and apart from an operator in
front of it. -/
def setMinus (t : Text) : Text :=
  setMinusFrom 0 t

def trimNumeral (numeral : Text) : Text :=
  let (whole, fraction) := (Text.cutAt? ['.'] numeral).getD (numeral, [])
  let whole := whole.dropWhile (· == '0')
  let fraction := (fraction.reverse.dropWhile (· == '0')).reverse
  (if whole.isEmpty then ['0'] else whole) ++ (if fraction.isEmpty then [] else '.' :: fraction)

def numeralPattern : Regex :=
  all [.capture 1 (.alt front (.one fun c => !Unicode.isWordChar c && c != '#' && c != '.')),
    .capture 2 (.seq (plus digit) (opt (.seq (char '.') (plus digit)))), edge]

def trimNumerals (t : Text) : Text :=
  numeralPattern.replaceAll t fun found => found.group 1 ++ trimNumeral (found.group 2)

def semicolonPattern : Regex :=
  .seq (char ';') blanks

def newlinesPattern : Regex :=
  .seq (char '\n') (plus (char '\n'))

def minifyCode (code : Text) : Text :=
  let bare := Text.join ['\n'] ((Text.lines code).map fun line => (Lexical.splitComment line).1)
  let (hidden, store) := Lexical.protect [] bare
  let t := shortenVariables hidden
  let t := Text.mapWords (Text.renamed [("FROM".toList, ":=".toList)]) t
  let t := trimNumerals (setMinus (squeeze t))
  let t := semicolonPattern.replaceAllWith t ";"
  let t := newlinesPattern.replaceAllWith t "\n"
  Lexical.restore store t

def localFunctionPattern : Regex :=
  all [edge, lit "LOCAL", blanks1, .capture 1 letterName, blanks, char '(']

def shortFunctionPattern : Regex :=
  all [front, lit "fn", plus (.one fun c => c.isDigit || ('A' ≤ c && c ≤ 'Z') ||
    ('a' ≤ c && c ≤ 'h')), back]

def codeOf (segments : List Segment) : List Text :=
  segments.filterMap fun segment =>
    match segment with
    | .code t => some t
    | .verbatim _ => none

/-- The renamings of the local functions of a program. The numbers of new names start at zero. -/
def functionRenamings (code : List Text) : List (Text × Text) :=
  let names := code.flatMap fun t =>
    (localFunctionPattern.findAll t).map fun found => found.group 1
  renamingsFrom shortFunctionPattern.isMatch (fun n => "fn".toList ++ Numeral.base32 (n - 1))
    (code.flatMap Text.words) 0 [] names

def shortenFunctions (segments : List Segment) : List Segment :=
  let renamings := functionRenamings (codeOf segments)
  segments.map fun segment =>
    match segment with
    | .code t => .code (Text.mapWords (Text.renamed renamings) t)
    | .verbatim line => .verbatim line

/-- The text of a segment, with a line feed at its end. Code without line feeds at its ends may be
nothing at all. -/
def segmentText : Segment → Text
  | .verbatim line => line ++ ['\n']
  | .code t =>
    let bare := ((t.dropWhile (· == '\n')).reverse.dropWhile (· == '\n')).reverse
    if bare.isEmpty then [] else bare ++ ['\n']

def minify (t : Text) : Text :=
  let small := (segments t).map fun segment =>
    match segment with
    | .code t => .code (minifyCode t)
    | .verbatim line => .verbatim line
  (shortenFunctions small).flatMap segmentText

end PrimePlus.Program
