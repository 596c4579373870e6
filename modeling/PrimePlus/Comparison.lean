import PrimePlus.Text.Basic

/-!
The comparisons that gate a pattern rule and that decide a conditional directive.
-/

namespace PrimePlus

inductive Comparison where
  | less
  | lessEqual
  | equal
  | notEqual
  | greaterEqual
  | greater
  deriving Repr, DecidableEq

namespace Comparison

def ofSign? (sign : Text) : Option Comparison :=
  match String.ofList sign with
  | "<" => some .less
  | "<=" | "≤" => some .lessEqual
  | "==" | "=" => some .equal
  | "!=" | "≠" | "<>" => some .notEqual
  | ">=" | "≥" => some .greaterEqual
  | ">" => some .greater
  | _ => none

/-- Whether a comparison holds, given whether the left value is less than, equal to and greater than
the right one. None of the three holds for values that cannot be compared. -/
def holds (isLess isEqual isGreater : Bool) : Comparison → Bool
  | .less => isLess
  | .lessEqual => isLess || isEqual
  | .equal => isEqual
  | .notEqual => !isEqual
  | .greaterEqual => isGreater || isEqual
  | .greater => isGreater

def holdsNat (op : Comparison) (left right : Nat) : Bool :=
  op.holds (left < right) (left == right) (right < left)

def holdsFloat (op : Comparison) (left right : Float) : Bool :=
  op.holds (left < right) (left == right) (right < left)

def holdsText (op : Comparison) (left right : Text) : Bool :=
  op.holds (left < right) (left == right) (right < left)

end Comparison

end PrimePlus
