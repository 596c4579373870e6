import PrimePlus.Text.Basic

/-!
The form in which the calculator reads a program: UTF-16 behind a byte order mark.
-/

namespace PrimePlus.Encoding.Utf16

def units (c : Char) : List Nat :=
  let n := c.toNat
  if n < 0x10000 then [n] else [0xD800 + (n - 0x10000) / 0x400, 0xDC00 + (n - 0x10000) % 0x400]

def unitBytes (unit : Nat) : List UInt8 :=
  [(unit % 256).toUInt8, (unit / 256).toUInt8]

def byteOrderMark : List UInt8 :=
  [0xFF, 0xFE]

def encode (t : Text) : List UInt8 :=
  byteOrderMark ++ ((t.flatMap units).filter (· != 0x0D)).flatMap unitBytes

def unitsOf? : List UInt8 → Option (List Nat)
  | [] => some []
  | [_] => none
  | low :: high :: rest => (unitsOf? rest).map ((low.toNat + 256 * high.toNat) :: ·)

def isHigh (unit : Nat) : Bool :=
  0xD800 ≤ unit && unit < 0xDC00

def isLow (unit : Nat) : Bool :=
  0xDC00 ≤ unit && unit < 0xE000

def charsFrom : Option Nat → List Nat → Option Text
  | none, [] => some []
  | some _, [] => none
  | none, unit :: rest =>
    if isHigh unit then charsFrom (some unit) rest
    else if isLow unit then none
    else (charsFrom none rest).map (Char.ofNat unit :: ·)
  | some high, unit :: rest =>
    if isLow unit then
      (charsFrom none rest).map
        (Char.ofNat (0x10000 + (high - 0xD800) * 0x400 + (unit - 0xDC00)) :: ·)
    else none

def decode? (bytes : List UInt8) : Option Text :=
  let body := if byteOrderMark.isPrefixOf bytes then bytes.drop 2 else bytes
  (unitsOf? body).bind (charsFrom none)

end PrimePlus.Encoding.Utf16
