import PrimePlus.Numeral.Binary64
import PrimePlus.Text.Basic

/-!
Decimal text with a fixed number of places, computed from the exact value and rounded half to even.
-/

namespace PrimePlus.Numeral

/-- The digits of `n` with a point before the last `places` of them; at least one digit stands
before the point, and there is no point without places. -/
def placePoint (n places : Nat) : Text :=
  let digits := Text.ofNat n
  let padded := List.replicate (places + 1 - digits.length) '0' ++ digits
  let split := padded.length - places
  if places = 0 then padded else padded.take split ++ '.' :: padded.drop split

def placesLimit : Nat := 65535

def fixed (x : Float) (places : Nat) : Text :=
  match Binary64.ofFloat x with
  | .undefined => "NaN".toList
  | .infinite negative => (if negative then "-inf" else "inf").toList
  | .finite negative m p =>
    let parts := Binary64.fraction m p
    (if negative then ['-'] else []) ++
      placePoint (Binary64.roundDiv (parts.1 * pow10 places) parts.2) places

def fixed? (x : Float) (places : Nat) : Option Text :=
  if places ≤ placesLimit then some (fixed x places) else none

def dropBack (c : Char) (t : Text) : Text :=
  (t.reverse.dropWhile (· == c)).reverse

/-- The text of a number with at most the given places: zeros at the end and a point that nothing
follows are dropped, and a negative zero loses its sign. -/
def trimmed (x : Float) (places : Nat) : Text :=
  let text := fixed x places
  let short := if text.contains '.' then dropBack '.' (dropBack '0' text) else text
  if short = "-0".toList then ['0'] else short

def trimmed? (x : Float) (places : Nat) : Option Text :=
  if places ≤ placesLimit then some (trimmed x places) else none

end PrimePlus.Numeral
