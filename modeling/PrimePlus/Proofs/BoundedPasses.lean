import Mathlib.Logic.Function.Iterate
import PrimePlus.Alias.Resolve
import PrimePlus.Proofs.AliasTable
import PrimePlus.Rule

/-!
Substitution by repeated passes ends at the first text that a pass leaves as it is.
-/

namespace PrimePlus

open List

section Passes

variable {pass : Text → Reported Text} {limit : Nat} {t : Text}

def Diagnostic.IsLoop (diagnostic : Diagnostic) : Prop :=
  ∃ subject passes location, diagnostic =
    (Error.substitutionLoop subject passes).diagnostic location

theorem Diagnostic.IsLoop.head? {diagnostic : Diagnostic} (loop : diagnostic.IsLoop) :
    diagnostic.severity = .error ∧ diagnostic.message.head? = some 's' := by
  obtain ⟨subject, passes, loc, rfl⟩ := loop
  exact ⟨rfl, rfl⟩

def IsQuiet (reports : List Diagnostic) : Prop :=
  ∀ report ∈ reports, ¬report.IsLoop

def passed (pass : Text → Reported Text) (n : Nat) (t : Text) : Text :=
  (fun t => (pass t).1)^[n] t

/-- After `n` passes, and not before, a further pass changes nothing. -/
def FirstFixed (pass : Text → Reported Text) (t : Text) (n : Nat) : Prop :=
  passed pass (n + 1) t = passed pass n t ∧ ∀ m < n, passed pass (m + 1) t ≠ passed pass m t

theorem FirstFixed.unique {n m : Nat} (first : FirstFixed pass t n) (o : FirstFixed pass t m) :
    n = m := by
  rcases Nat.lt_trichotomy n m with less | eq | more
  · exact absurd first.1 (o.2 n less)
  · exact eq
  · exact absurd o.1 (first.2 m more)

theorem FirstFixed.fixed {n : Nat} (first : FirstFixed pass t n) :
    (pass (passed pass n t)).1 = passed pass n t := by
  have eq := first.1
  rwa [passed, Function.iterate_succ_apply'] at eq

/-- What a number of passes report. -/
def told (pass : Text → Reported Text) (t : Text) (n : Nat) : List Diagnostic :=
  (range n).flatMap fun m => (pass (passed pass m t)).2

end Passes

namespace Alias

variable (ident : Identity) (loc : Location)

namespace Table

variable (tbl : Table) {t : Text}

end Table

end Alias

end PrimePlus
