/-!
The search for a number that is not taken, as it is done for every generated name.
-/

namespace PrimePlus

/-- The least number above `last` that is not taken, if there is one among the next `tries`; the
number after those otherwise. With at most as many numbers taken as are tried it is free as well. -/
def nextFree (taken : Nat → Bool) : Nat → Nat → Nat
  | 0, last => last + 1
  | tries + 1, last => if taken (last + 1) then nextFree taken tries (last + 1) else last + 1

end PrimePlus
