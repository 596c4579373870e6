import PrimePlus.Numeral.Power

/-!
Double-precision numbers as exact integers and powers of two.
-/

namespace PrimePlus.Numeral

/-- What the bits of a double-precision number stand for: a finite number is
`mantissa * 2 ^ exponent`, negated where `negative` says so. -/
inductive Binary64 where
  | finite (negative : Bool) (mantissa : Nat) (exponent : Int)
  | infinite (negative : Bool)
  | undefined
  deriving Repr, DecidableEq

namespace Binary64

def ofFloat (x : Float) : Binary64 :=
  let bits := x.toBits.toNat
  let negative := decide (pow2 63 ≤ bits)
  let biased : Nat := bits / pow2 52 % pow2 11
  let fraction := bits % pow2 52
  if biased = 2047 then if fraction = 0 then .infinite negative else .undefined
  else if biased = 0 then .finite negative fraction (-1074)
  else .finite negative (pow2 52 + fraction) ((biased : Int) - 1075)

def roundDiv (num den : Nat) : Nat :=
  let quotient := num / den
  let twice := 2 * (num % den)
  if twice < den || (twice = den && quotient % 2 = 0) then quotient else quotient + 1

def scaled (num den : Nat) (exponent : Int) : Nat × Nat :=
  (num * pow2 (-exponent).toNat, den * pow2 exponent.toNat)

/-- The double-precision number nearest to a fraction, a tie going to the even neighbour. The
exponent is the least one that leaves at most 53 binary digits before the point. -/
def nearest (negative : Bool) (num den : Nat) : Float :=
  let magnitude :=
    if num = 0 then 0
    else
      let guess : Int := max ((num.log2 : Int) - den.log2 - 53) (-1074)
      let whole := fun exponent : Int => (scaled num den exponent).1 / (scaled num den exponent).2
      let exponent := if pow2 53 ≤ whole guess then guess + 1 else guess
      let parts := scaled num den exponent
      min ((exponent + 1074).toNat * pow2 52 + roundDiv parts.1 parts.2) (2047 * pow2 52)
  Float.ofBits (UInt64.ofNat (magnitude + if negative then pow2 63 else 0))

def fraction (mantissa : Nat) (exponent : Int) : Nat × Nat :=
  (mantissa * pow2 exponent.toNat, pow2 (-exponent).toNat)

/-- The remainder of a division that rounds the quotient toward zero; it has the sign of the
dividend. -/
def remainder (x y : Float) : Float :=
  match ofFloat x, ofFloat y with
  | .finite negative m p, .finite _ n q =>
    if n = 0 then Float.ofBits 0x7FF8000000000000
    else
      let low := min p q
      let rest := (m * pow2 (p - low).toNat) % (n * pow2 (q - low).toNat)
      let parts := fraction rest low
      nearest negative parts.1 parts.2
  | .finite _ _ _, .infinite _ => x
  | _, _ => Float.ofBits 0x7FF8000000000000

/-- The integer part of a number, brought into the range of 64-bit signed integers. -/
def toInt64 (x : Float) : Int :=
  match ofFloat x with
  | .undefined => 0
  | .infinite negative => if negative then -pow2 63 else pow2 63 - 1
  | .finite negative m p =>
    let parts := fraction m p
    let whole : Int := parts.1 / parts.2
    if negative then max (-whole) (-pow2 63) else min whole (pow2 63 - 1)

end Binary64

end PrimePlus.Numeral
