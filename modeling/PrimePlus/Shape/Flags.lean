import PrimePlus.CharSet.Fold
import PrimePlus.Shape.Basic
import PrimePlus.Unicode.Property

/-!
The modes of a pattern, and the classes whose meaning depends on them.
-/

namespace PrimePlus.Shape

open Unicode

structure Flags where
  ignoreCase : Bool := false
  multiLine : Bool := false
  dotAll : Bool := false
  lazyFirst : Bool := false
  crlf : Bool := false
  unicode : Bool := true
  extended : Bool := false

/-- The rest of a pattern after blanks and comments, which only the extended mode skips. A comment
runs from a number sign to the end of the line. -/
def skipBlanks (flags : Flags) (comment : Bool) : Text → Text
  | [] => []
  | c :: cs =>
    if !flags.extended then c :: cs
    else if comment then skipBlanks flags (c != '\n') cs
    else if isBlank c then skipBlanks flags false cs
    else if c = '#' then skipBlanks flags true cs
    else c :: cs

def skipped (flags : Flags) (rest : Text) : Text :=
  skipBlanks flags false rest

namespace Flags

def fold (flags : Flags) (members : CharSet) : CharSet :=
  if !flags.ignoreCase then members
  else if flags.unicode then members.foldCase
  else members.foldAsciiCase

def negateIf (flags : Flags) (negated : Bool) (members : CharSet) : CharSet :=
  if negated then members.complement (if flags.unicode then CharSet.lastPoint else 0xFF)
  else members

/-- A class as long as it holds whole characters only. -/
def whole? (flags : Flags) (members : CharSet) : Option CharSet :=
  if flags.unicode || members.isAscii then some members else none

/-- One literal character. Case matters for characters without variants, and without the Unicode
mode for those beyond the ASCII range. -/
def literal (flags : Flags) (c : Char) : Shape :=
  if !flags.ignoreCase || (!flags.unicode && 0x7F < c.toNat) then .literal [c]
  else if flags.unicode then
    ofSet false (.ofRanges ((caseVariants c).map fun d => (d.toNat, d.toNat)))
  else ofSet true (CharSet.point c.toNat).foldAsciiCase

def digits (flags : Flags) : CharSet :=
  ⟨(0x30, 0x39) :: (if flags.unicode then decimalRanges else [])⟩

def blanks (flags : Flags) : CharSet :=
  ⟨(0x9, 0xD) :: (0x20, 0x20) :: (if flags.unicode then
    [(0x85, 0x85), (0xA0, 0xA0), (0x1680, 0x1680), (0x2000, 0x200A), (0x2028, 0x2029),
     (0x202F, 0x202F), (0x205F, 0x205F), (0x3000, 0x3000)] else [])⟩

def words (flags : Flags) : CharSet :=
  ⟨(0x30, 0x39) :: (0x41, 0x5A) :: (0x5F, 0x5F) :: (0x61, 0x7A) ::
    (if flags.unicode then
      ((CharSet.ofRanges (alphabeticRanges ++ decimalRanges)).symmDiff ⟨wordDifferences⟩).ranges
      else [])⟩

/-- The class of the dot. Without the Unicode mode it could match half a character. -/
def dot? (flags : Flags) : Option CharSet :=
  if !flags.unicode then none
  else if flags.dotAll then some (.interval 0 CharSet.lastPoint)
  else if flags.crlf then some ⟨[(0, 0x9), (0xB, 0xC), (0xE, CharSet.lastPoint)]⟩
  else some ⟨[(0, 0x9), (0xB, CharSet.lastPoint)]⟩

def lineStart (flags : Flags) : Look :=
  if !flags.multiLine then .textStart else if flags.crlf then .lineStartCrlf else .lineStart

def lineEnd (flags : Flags) : Look :=
  if !flags.multiLine then .textEnd else if flags.crlf then .lineEndCrlf else .lineEnd

end Flags

inductive Primitive where
  | literal (c : Char)
  /-- A byte beyond the ASCII range. -/
  | byte (n : Nat)
  | category (members : CharSet)
  | condition (look : Look)

end PrimePlus.Shape
