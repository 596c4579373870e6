import PrimePlus.Lexical.Bracket

/-!
Conditional expressions. `(c ? a : b)` becomes `IFTE(c, a, b)`, inner parentheses first.
-/

namespace PrimePlus.Construct.Conditional

open Lexical (bracketStep)

def isGap (c : Char) : Bool :=
  c == ' ' || c == '\t' || c == '\n' || c == '\x0c' || c == '\r'

def isSpaced (prev next : Option Char) : Bool :=
  prev.any isGap && next.any isGap

/-- Cut a text at the first question mark outside brackets that makes a conditional. -/
def cutQuestion? (depth : Int) (prev : Option Char) : Text → Option (Text × Text)
  | [] => none
  | c :: cs =>
    if c = '?' && depth = 0 && isSpaced prev cs.head? then some ([], cs)
    else (cutQuestion? (depth + bracketStep c) (some c) cs).map fun (lead, tail) =>
      (c :: lead, tail)

def isDividing (prev next : Option Char) : Bool :=
  prev != some ':' && next != some ':' && next != some '='

/-- Cut a text at the colon that divides the branches, when `pending` further conditionals have to
be divided first. -/
def cutColon? (depth : Int) (pending : Nat) (prev : Option Char) : Text → Option (Text × Text)
  | [] => none
  | c :: cs =>
    let further := fun pending =>
      (cutColon? (depth + bracketStep c) pending (some c) cs).map fun (lead, tail) =>
        (c :: lead, tail)
    if c = '?' && depth = 0 && isSpaced prev cs.head? then further (pending + 1)
    else if c = ':' && depth = 0 && isDividing prev cs.head? then
      match pending with
      | 0 => some ([], cs)
      | pending + 1 => further pending
    else further pending

def split? (t : Text) : Option (Text × Text × Text) := do
  let (condition, rest) ← cutQuestion? 0 none t
  let (whenTrue, whenFalse) ← cutColon? 0 0 (some '?') rest
  let condition := Text.trim condition
  let whenTrue := Text.trim whenTrue
  let whenFalse := Text.trim whenFalse
  if condition.isEmpty || whenTrue.isEmpty || whenFalse.isEmpty then none
  else some (condition, whenTrue, whenFalse)

/-- The call that a conditional becomes, if a text is one. The first argument bounds the nesting;
the length of the text is always enough. -/
def callFrom? : Nat → Text → Option Text
  | 0, _ => none
  | fuel + 1, t =>
    (split? t).map fun (condition, whenTrue, whenFalse) =>
      "IFTE(".toList ++ condition ++ ", ".toList ++ (callFrom? fuel whenTrue).getD whenTrue ++
        ", ".toList ++ (callFrom? fuel whenFalse).getD whenFalse ++ [')']

def call? (t : Text) : Option Text :=
  callFrom? (t.length + 1) t

/-- What parentheses around a text become, given the character before them. -/
def group (prev : Option Char) (inside : Text) : Text :=
  match call? inside with
  | some call => if prev.any Unicode.isNameChar then '(' :: call ++ [')'] else call
  | none => '(' :: inside ++ [')']

/-- A text with every conditional between parentheses turned into a call, up to the first
parenthesis that is never closed. The first argument bounds the number of steps; the length of the
text is always enough. -/
def lowerFrom : Nat → Option Char → Text → Text
  | 0, _, t => t
  | _ + 1, _, [] => []
  | fuel + 1, prev, c :: cs =>
    if c = '(' then
      match Lexical.cutParens? (c :: cs) with
      | none => c :: cs
      | some (inside, rest) =>
        group prev (lowerFrom fuel none inside) ++ lowerFrom fuel (some ')') rest
    else c :: lowerFrom fuel (some c) cs

def lower (t : Text) : Text :=
  lowerFrom t.length none t

end PrimePlus.Construct.Conditional

namespace PrimePlus.Construct

def conditional? (depth : Nat) (line : Text) : Option Text :=
  if depth = 0 || !Text.hasPart line " ? ".toList then none
  else
    let lowered := Conditional.lower line
    if lowered = line then none else some lowered

end PrimePlus.Construct
