import PrimePlus.Regex.Basic

/-!
The characters that a match can start with.
-/

namespace PrimePlus

structure First where
  isNullable : Bool
  accepts : Char → Bool

namespace First

def seq (first second : First) : First :=
  if first.isNullable then
    ⟨second.isNullable, fun c => first.accepts c || second.accepts c⟩
  else first

def alt (first second : First) : First :=
  ⟨first.isNullable || second.isNullable, fun c => first.accepts c || second.accepts c⟩

def admits (first : First) (c : Char) : Bool :=
  first.isNullable || first.accepts c

end First

namespace Regex

def first : Regex → First
  | .empty => ⟨true, fun _ => false⟩
  | .one accepts => ⟨false, accepts⟩
  | .assert _ => ⟨true, fun _ => false⟩
  | .seq left right => left.first.seq right.first
  | .alt left right => left.first.alt right.first
  | .many _ body => body.first
  | .capture _ body => body.first

variable {α : Type}

/-- Where a match cannot start with the next character it can only be empty, and nothing is found if
the rest of the search finds nothing at the same place. -/
theorem run_eq_none (r : Regex) (cursor : Cursor) (groups : Groups) (next : Continuation α)
    (blocked : ∀ c, cursor.after.head? = some c → r.first.accepts c = false)
    (fails : r.first.isNullable = true → ∀ groups, next cursor groups = none) :
    r.run cursor groups next = none := by
  induction r generalizing groups next with
  | empty => exact fails rfl groups
  | one accepts =>
    unfold run
    split
    · rfl
    · next c rest ahead =>
      have refused : accepts c = false := blocked c (by rw [ahead]; rfl)
      simp [refused]
  | assert holds =>
    unfold run
    split
    · exact fails rfl groups
    · rfl
  | seq left right ihLeft ihRight =>
    simp only [first, First.seq] at blocked fails
    unfold run
    apply ihLeft
    · intro c ahead
      have both := blocked c ahead
      split at both
      · exact (Bool.or_eq_false_iff.mp both).1
      · exact both
    · intro nullable groups
      simp only [nullable, if_true] at blocked fails
      apply ihRight
      · exact fun c ahead => (Bool.or_eq_false_iff.mp (blocked c ahead)).2
      · exact fails
  | alt left right ihLeft ihRight =>
    have noLeft : left.run cursor groups next = none := by
      apply ihLeft
      · exact fun c ahead => (Bool.or_eq_false_iff.mp (blocked c ahead)).1
      · exact fun nullable => fails (by simp [first, First.alt, nullable])
    unfold run
    rw [noLeft]
    apply ihRight
    · exact fun c ahead => (Bool.or_eq_false_iff.mp (blocked c ahead)).2
    · exact fun nullable => fails (by simp [first, First.alt, nullable])
  | many greedy body ih =>
    unfold run
    apply ih
    · exact blocked
    · intro nullable groups
      simp only [Nat.lt_irrefl, if_false]
      exact fails nullable groups
  | capture index body ih =>
    unfold run
    apply ih
    · exact blocked
    · intro nullable groups
      exact fails nullable _

end Regex

end PrimePlus
