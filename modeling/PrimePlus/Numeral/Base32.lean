import PrimePlus.Text.Basic

/-!
Numbers in the calculator's base 32, whose digits are `0` to `9`, `A` to `N` and `a` to `h`.
-/

namespace PrimePlus.Numeral

def base32Digit (d : Nat) : Char :=
  if d < 10 then Char.ofNat ('0'.toNat + d)
  else if d < 24 then Char.ofNat ('A'.toNat + (d - 10))
  else Char.ofNat ('a'.toNat + (d - 24))

def base32Go (n : Nat) (written : Text) : Text :=
  if h : n = 0 then written else base32Go (n / 32) (base32Digit (n % 32) :: written)
termination_by n
decreasing_by omega

def base32 (n : Nat) : Text :=
  if n = 0 then ['0'] else base32Go n []

end PrimePlus.Numeral
