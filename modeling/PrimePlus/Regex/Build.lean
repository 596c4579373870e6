import PrimePlus.Regex.Basic
import PrimePlus.Unicode.CaseFold

/-!
The vocabulary in which the expressions of this library are written.
-/

namespace PrimePlus.Regex

open Unicode (isBlank isWordChar isDecimal)

def char (c : Char) : Regex :=
  .one (· == c)

def text (t : Text) : Regex :=
  t.foldr (fun c rest => .seq (char c) rest) .empty

def lit (s : String) : Regex :=
  text s.toList

def litAnyCase (s : String) : Regex :=
  s.toList.foldr (fun c rest => .seq (.one (Unicode.caseVariants c).contains) rest) .empty

def all (parts : List Regex) : Regex :=
  parts.foldr .seq .empty

def any : List Regex → Regex
  | [] => .one fun _ => false
  | [last] => last
  | first :: rest => .alt first (any rest)

def anyLit (words : List String) : Regex :=
  any (words.map lit)

def anyLitAnyCase (words : List String) : Regex :=
  any (words.map litAnyCase)

def opt (body : Regex) : Regex :=
  .alt body .empty

def plus (body : Regex) : Regex :=
  .many true body

def plusLazy (body : Regex) : Regex :=
  .many false body

def star (body : Regex) : Regex :=
  .alt (plus body) .empty

def starLazy (body : Regex) : Regex :=
  .alt .empty (plusLazy body)

def blank : Regex :=
  .one isBlank

def blanks : Regex :=
  star blank

def blanks1 : Regex :=
  plus blank

def wordChar : Regex :=
  .one isWordChar

def digit : Regex :=
  .one isDecimal

def oneOf (s : String) : Regex :=
  .one s.toList.contains

def noneOf (s : String) : Regex :=
  .one fun c => !s.toList.contains c

def notNewline : Regex :=
  .one (· != '\n')

def front : Regex :=
  .assert fun cursor => cursor.index == 0

def back : Regex :=
  .assert fun cursor => cursor.after.isEmpty

end PrimePlus.Regex

namespace PrimePlus.Cursor

def lastIs (cursor : Cursor) (accepts : Char → Bool) : Bool :=
  cursor.before.head?.any accepts

def nextIs (cursor : Cursor) (accepts : Char → Bool) : Bool :=
  cursor.after.head?.any accepts

/-- Whether exactly one of the two neighbours of a place is of a class. -/
def atEdge (cursor : Cursor) (accepts : Char → Bool) : Bool :=
  cursor.lastIs accepts != cursor.nextIs accepts

end PrimePlus.Cursor

namespace PrimePlus.Regex

def edge : Regex :=
  .assert fun cursor => cursor.atEdge Unicode.isWordChar

def letter : Regex :=
  .one Char.isAlpha

def letterOrUnderscore : Regex :=
  .one fun c => c.isAlpha || c == '_'

def dottedChar : Regex :=
  .one fun c => Unicode.isWordChar c || c == '.'

def letterName : Regex :=
  .seq letter (star wordChar)

def name : Regex :=
  .seq letterOrUnderscore (star wordChar)

def dottedName : Regex :=
  .seq letterOrUnderscore (star dottedChar)

end PrimePlus.Regex
