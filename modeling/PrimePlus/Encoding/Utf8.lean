import PrimePlus.Text.Basic

/-!
The UTF-8 form of a text. Reading accepts only the shortest form of a character, and no surrogates.
-/

namespace PrimePlus.Encoding.Utf8

def continuation (n : Nat) : UInt8 :=
  (0x80 + n % 64).toUInt8

def encodeChar (c : Char) : List UInt8 :=
  let n := c.toNat
  if n < 0x80 then [n.toUInt8]
  else if n < 0x800 then [(0xC0 + n / 64).toUInt8, continuation n]
  else if n < 0x10000 then [(0xE0 + n / 4096).toUInt8, continuation (n / 64), continuation n]
  else [(0xF0 + n / 262144).toUInt8, continuation (n / 4096), continuation (n / 64),
    continuation n]

def encode (t : Text) : List UInt8 :=
  t.flatMap encodeChar

/-- A character that is being read: how many bytes are missing, the value so far, and the least
value that may be written with as many bytes. -/
structure Sequence where
  missing : Nat
  value : Nat
  least : Nat
  deriving Repr, DecidableEq

def Sequence.start? (b : Nat) : Option Sequence :=
  if 0xC0 ≤ b && b < 0xE0 then some ⟨1, b - 0xC0, 0x80⟩
  else if 0xE0 ≤ b && b < 0xF0 then some ⟨2, b - 0xE0, 0x800⟩
  else if 0xF0 ≤ b && b < 0xF8 then some ⟨3, b - 0xF0, 0x10000⟩
  else none

def decodeFrom : Option Sequence → List UInt8 → Option Text
  | none, [] => some []
  | some _, [] => none
  | none, b :: rest =>
    if b.toNat < 0x80 then (decodeFrom none rest).map (Char.ofNat b.toNat :: ·)
    else
      match Sequence.start? b.toNat with
      | some sequence => decodeFrom (some sequence) rest
      | none => none
  | some sequence, b :: rest =>
    if 0x80 ≤ b.toNat && b.toNat < 0xC0 then
      let value := 64 * sequence.value + (b.toNat - 0x80)
      if 1 < sequence.missing then
        decodeFrom (some ⟨sequence.missing - 1, value, sequence.least⟩) rest
      else if sequence.least ≤ value && value.isValidChar then
        (decodeFrom none rest).map (Char.ofNat value :: ·)
      else none
    else none

def decode? (bytes : List UInt8) : Option Text :=
  decodeFrom none bytes

end PrimePlus.Encoding.Utf8
