/-!
The powers that number formats are made of.
-/

namespace PrimePlus.Numeral

abbrev pow2 (n : Nat) : Nat :=
  Nat.pow 2 n

abbrev pow10 (n : Nat) : Nat :=
  Nat.pow 10 n

def fitsWord (n : Nat) : Bool :=
  n < 0x10000000000000000

end PrimePlus.Numeral
