import PrimePlus.Numeral.Binary64
import PrimePlus.Text.Basic

/-!
Reading decimal numbers. The result is the double-precision number nearest to what is written.
-/

namespace PrimePlus.Numeral

/-- The number `digits * 10 ^ exponent`. Magnitudes far outside the range of double precision are
settled without computing the power. -/
def ofDecimal (negative : Bool) (digits : Text) (exponent : Int) : Float :=
  let significant := digits.dropWhile (· == '0')
  let places : Int := significant.length + exponent
  if significant.isEmpty || places < -330 then Binary64.nearest negative 0 1
  else if 310 < places then Binary64.nearest negative (pow2 1100) 1
  else
    Binary64.nearest negative (Text.toNat significant * pow10 exponent.toNat)
      (pow10 (-exponent).toNat)

def readExponent? (t : Text) : Option Int :=
  let (negative, digits) := match t with
    | '-' :: rest => (true, rest)
    | '+' :: rest => (false, rest)
    | _ => (false, t)
  (Text.toNat? digits).map fun n => if negative then -(n : Int) else n

def readUnsigned? (negative : Bool) (t : Text) : Option Float :=
  let whole := t.takeWhile Char.isDigit
  let rest := t.drop whole.length
  let (fraction, rest) := match rest with
    | '.' :: more => (more.takeWhile Char.isDigit, more.dropWhile Char.isDigit)
    | _ => ([], rest)
  if whole.isEmpty && fraction.isEmpty then none
  else
    let value := fun (exponent : Int) =>
      ofDecimal negative (whole ++ fraction) (exponent - fraction.length)
    match rest with
    | [] => some (value 0)
    | c :: more => if c == 'e' || c == 'E' then (readExponent? more).map value else none

def read? (t : Text) : Option Float :=
  let (negative, body) := match t with
    | '-' :: rest => (true, rest)
    | '+' :: rest => (false, rest)
    | _ => (false, t)
  let word := String.ofList (body.map Char.toLower)
  if word = "inf" || word = "infinity" then some (Binary64.nearest negative (pow2 1100) 1)
  else if word = "nan" then some (Float.ofBits 0x7FF8000000000000)
  else readUnsigned? negative body

end PrimePlus.Numeral
