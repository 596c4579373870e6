import PrimePlus.Expression.Error
import PrimePlus.Numeral.Read

/-!
The tokens of an arithmetic expression. A minus sign where an operand is expected negates.
-/

namespace PrimePlus.Expression

open Unicode (isBlank isAlphabetic isNameChar)

inductive Operator where
  | add
  | sub
  | mul
  | div
  | mod
  | pow
  deriving Repr, DecidableEq

def Operator.precedence : Operator → Nat
  | .add | .sub => 1
  | .mul | .div | .mod => 2
  | .pow => 3

def Operator.ofChar? : Char → Option Operator
  | '+' => some .add
  | '-' => some .sub
  | '*' => some .mul
  | '/' => some .div
  | '%' => some .mod
  | '^' => some .pow
  | _ => none

inductive Token where
  | number (value : Float)
  | operator (op : Operator)
  | negate
  | opening
  | closing

def piValue : Float :=
  Float.ofBits 0x400921FB54442D18

def eulerValue : Float :=
  Float.ofBits 0x4005BF0A8B145769

/-- The text of the numeral at the front of a text: digits and points, and an exponent where the
digits of one follow. -/
def numeralLead (t : Text) : Text :=
  let isMantissa := fun c : Char => c.isDigit || c == '.'
  let mantissa := t.takeWhile isMantissa
  match t.dropWhile isMantissa with
  | c :: rest =>
    if c == 'e' || c == 'E' then
      let (sign, rest) := match rest with
        | '+' :: more => (['+'], more)
        | '-' :: more => (['-'], more)
        | _ => ([], rest)
      let digits := rest.takeWhile Char.isDigit
      if digits.isEmpty then mantissa else mantissa ++ c :: sign ++ digits
    else mantissa
  | [] => mantissa

def constant? (word : Text) : Option Float :=
  if word = "pi".toList then some piValue
  else if word = "e".toList then some eulerValue
  else none

/-- The tokens of the rest of an expression, of which `skip` characters belong to the token before.
`operand` says that an operand is expected. -/
def tokensFrom (whole : Text) : Nat → Bool → Text → Except Fault (List Token)
  | _, _, [] => .ok []
  | skip + 1, operand, _ :: cs => tokensFrom whole skip operand cs
  | 0, operand, c :: cs =>
    if isBlank c then tokensFrom whole 0 operand cs
    else if c.isDigit || c == '.' then
      let text := numeralLead (c :: cs)
      match Numeral.readUnsigned? false text with
      | some value => (tokensFrom whole (text.length - 1) false cs).map (.number value :: ·)
      | none => .error (.unknown text whole)
    else if c == 'π' then (tokensFrom whole 0 false cs).map (.number piValue :: ·)
    else if c == '-' && operand then (tokensFrom whole 0 true cs).map (.negate :: ·)
    else if c == '+' && operand then tokensFrom whole 0 true cs
    else if c == '(' then (tokensFrom whole 0 true cs).map (.opening :: ·)
    else if c == ')' then (tokensFrom whole 0 false cs).map (.closing :: ·)
    else match Operator.ofChar? c with
      | some op => (tokensFrom whole 0 true cs).map (.operator op :: ·)
      | none =>
        if isAlphabetic c then
          let word := (c :: cs).takeWhile isNameChar
          match constant? word with
          | some value => (tokensFrom whole (word.length - 1) false cs).map (.number value :: ·)
          | none => .error (.unknown word whole)
        else .error (.unknown [c] whole)

def tokens (expression : Text) : Except Fault (List Token) :=
  tokensFrom expression 0 true expression

end PrimePlus.Expression
