import PrimePlus.Diagnostic

/-!
Repeating a pass over a text until it changes nothing, a bounded number of times.
-/

namespace PrimePlus

/-- The outcome of a repetition: the text, whether the last pass left it as it was, and what the
passes reported. -/
structure Settled where
  text : Text
  isFixed : Bool
  diagnostics : List Diagnostic
  deriving Repr, DecidableEq

def settle (pass : Text → Reported Text) : Nat → Text → Settled
  | 0, t => ⟨t, false, []⟩
  | limit + 1, t =>
    let next := pass t
    if next.1 = t then ⟨t, true, next.2⟩
    else
      let rest := settle pass limit next.1
      { rest with diagnostics := next.2 ++ rest.diagnostics }

theorem zero_lt_max_one (limit : Nat) : 0 < max 1 limit :=
  Nat.le_max_left 1 limit

end PrimePlus
