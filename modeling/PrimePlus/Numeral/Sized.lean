import PrimePlus.Numeral.Power
import PrimePlus.Text.Basic

/-!
Integers of a given width in bits, with or without a sign.
-/

namespace PrimePlus.Numeral

inductive Base where
  | binary
  | octal
  | decimal
  | hexadecimal
  deriving Repr, DecidableEq

namespace Base

def radix : Base → Nat
  | .binary => 2
  | .octal => 8
  | .decimal => 10
  | .hexadecimal => 16

def letter : Base → Char
  | .binary => 'b'
  | .octal => 'o'
  | .decimal => 'd'
  | .hexadecimal => 'h'

def ofLetter (c : Char) : Base :=
  if c = 'b' then .binary
  else if c = 'o' then .octal
  else if c = 'h' then .hexadecimal
  else .decimal

end Base

def digitValue (c : Char) : Nat :=
  if c.isDigit then c.toNat - '0'.toNat
  else if c.isLower then c.toNat - 'a'.toNat + 10
  else if c.isUpper then c.toNat - 'A'.toNat + 10
  else 36

def ofDigits? (base : Base) (digits : Text) : Option Nat :=
  if digits.isEmpty || !digits.all fun c => digitValue c < base.radix then none
  else some (digits.foldl (fun n c => base.radix * n + digitValue c) 0)

def toDigits (base : Base) (n : Nat) : Text :=
  (Nat.toDigits base.radix n).map Char.toUpper

def intText (n : Int) : Text :=
  if n < 0 then '-' :: Text.ofNat n.natAbs else Text.ofNat n.natAbs

/-- A one moved to the left in a word of `size` bits, where that is possible. -/
def bit? (size amount : Nat) : Option Nat :=
  if amount < size then some (pow2 amount) else none

def mask? (width : Nat) : Option Nat :=
  if 64 ≤ width then some (pow2 64 - 1)
  else (bit? 64 width).bind fun bit => if 1 ≤ bit then some (bit - 1) else none

/-- A number cut to a width in words of 64 bits, and of 128 where it is negative, as long as every
shift and every difference stays within its word. -/
def cutInWords? (raw : Nat) (signed : Bool) (width : Nat) : Option Int :=
  (mask? width).bind fun mask =>
    let bits := raw &&& mask
    if signed && width < 64 then
      (if 1 ≤ width then bit? 64 (width - 1) else none).bind fun top =>
        if bits &&& top = 0 then some bits
        else (bit? 128 width).bind fun whole =>
          if -pow2 127 ≤ (bits : Int) - whole then some (bits - whole) else none
    else if signed && width = 64 then some (if bits < pow2 63 then bits else bits - pow2 64)
    else some bits

/-- The decimal text of a sized literal, if its digits are digits of its base and denote a number of
at most 64 bits. A width of 0 stands for 64, widths above 64 are never signed, and a plus sign may
precede the digits. -/
def sizedValue (digits : Text) (signed : Bool) (width : Nat) (base : Base) : Option Text :=
  let digits := match digits with
    | '+' :: rest => rest
    | _ => digits
  (ofDigits? base digits).bind fun raw =>
    if !fitsWord raw then none
    else
      (cutInWords? raw signed (if width = 0 then 64 else width)).map intText

/-- The sized literal of an integer. Hexadecimal digits fill the width; a signed decimal literal is
written with the integer itself. -/
def sizedLiteral (n : Int) (signed : Bool) (width : Nat) (base : Base) : Text :=
  let bits := (n % pow2 width).toNat
  let digits := match base with
    | .hexadecimal =>
      let digits := toDigits base bits
      List.replicate ((width + 3) / 4 - digits.length) '0' ++ digits
    | .decimal => if signed then intText n else toDigits base bits
    | _ => toDigits base bits
  '#' :: digits ++ ':' :: (if signed then ['-'] else []) ++ Text.ofNat width ++ [base.letter]

end PrimePlus.Numeral
