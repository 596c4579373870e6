import PrimePlus.Text.Basic

/-!
What can be wrong with an arithmetic expression.
-/

namespace PrimePlus.Expression

inductive Fault where
  | divisionByZero
  | missingOpen (expression : Text)
  | missingClose (expression : Text)
  | unknown (token expression : Text)
  | malformed (expression : Text)
  | literalWidth (literal width : Text)
  | places (limit : Nat)
  deriving Repr, DecidableEq

def Fault.message : Fault → Text
  | .divisionByZero => "division by zero".toList
  | .missingOpen expression => "missing '(' in expression '".toList ++ expression ++ ['\'']
  | .missingClose expression => "missing ')' in expression '".toList ++ expression ++ ['\'']
  | .unknown token expression =>
    "unknown '".toList ++ token ++ "' in expression '".toList ++ expression ++ ['\'']
  | .malformed expression => "malformed expression '".toList ++ expression ++ ['\'']
  | .literalWidth literal width =>
    "integer width ".toList ++ width ++ " of '".toList ++ literal ++
      "' is outside 1..=64".toList
  | .places limit => "more than ".toList ++ Text.ofNat limit ++ " places".toList

end PrimePlus.Expression
