import PrimePlus.Regex.Search

/-!
Loops with a condition and a step. `for init; condition; step do` becomes `init; WHILE condition
DO`, and the `next` that closes the loop becomes `step; END;`.
-/

namespace PrimePlus.Construct

open Regex

/-- A loop that is open: the number of open blocks inside it, and its step. -/
structure OpenLoop where
  level : Nat
  step : Option Text
  deriving Repr, DecidableEq

def steppedPattern : Regex :=
  all [edge, litAnyCase "for", blanks1, .capture 1 (starLazy (noneOf ";")), blanks, char ';',
    blanks, .capture 2 (plusLazy (noneOf ";")), blanks, char ';', blanks,
    .capture 3 (starLazy (noneOf ";")), blanks, edge, litAnyCase "do", edge]

def countingPattern : Regex :=
  all [edge, litAnyCase "for", blanks1, plus wordChar, blanks1, litAnyCase "from", edge]

def nextPattern : Regex :=
  all [edge, litAnyCase "next", edge, blanks, opt (char ';')]

def whileHeader (start condition : Text) : Text :=
  (if start.isEmpty then [] else start ++ "; ".toList) ++ "WHILE ".toList ++ condition ++
    " DO".toList

/-- What closes the innermost loop when a number of blocks is open, and the loops that stay open. -/
def closeLoop (depth : Nat) : List OpenLoop → Text × List OpenLoop
  | [] => ("END;".toList, [])
  | inner :: outer =>
    if inner.level = depth then
      match inner.step with
      | some step => (step ++ "; END;".toList, outer)
      | none => ("END;".toList, outer)
    else ("END;".toList, inner :: outer)

/-- The new line where the line holds a loop, and the loops that are open after it. The innermost
loop comes first. A loop whose block is no longer open was closed in some other way and is
forgotten. -/
def loops (opened : List OpenLoop) (depth : Nat) (line : Text) : Option Text × List OpenLoop :=
  if depth = 0 then (none, opened)
  else
    let opened := opened.filter fun entry => entry.level ≤ depth
    match steppedPattern.find? line with
    | some found =>
      let step := Text.trim (found.group 3)
      (some (found.lead ++ whileHeader (Text.trim (found.group 1)) (Text.trim (found.group 2)) ++
        found.tail), ⟨depth + 1, if step.isEmpty then none else some step⟩ :: opened)
    | none =>
      if countingPattern.isMatch line then (none, ⟨depth + 1, none⟩ :: opened)
      else match nextPattern.find? line with
        | none => (none, opened)
        | some found =>
          let (closing, rest) := closeLoop depth opened
          (some (found.lead ++ closing ++ found.tail), rest)

end PrimePlus.Construct
