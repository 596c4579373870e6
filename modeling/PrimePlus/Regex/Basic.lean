import PrimePlus.Text.Basic

/-!
Regular expressions over characters, searched with a continuation for the rest of the expression.
-/

namespace PrimePlus

/-- A place in a text: how many characters were read, those characters with the last one first,
and the characters ahead. -/
structure Cursor where
  index : Nat
  before : Text
  after : Text
  deriving Repr, DecidableEq

namespace Cursor

def start (t : Text) : Cursor :=
  ⟨0, [], t⟩

/-- The place after the character `c`, read from a cursor whose characters ahead were `c :: rest`.
-/
def step (cursor : Cursor) (c : Char) (rest : Text) : Cursor :=
  ⟨cursor.index + 1, c :: cursor.before, rest⟩

def spanTo (first last : Cursor) : Text :=
  first.after.take (last.index - first.index)

end Cursor

/-- A captured text: the number of its group, and the places where it starts and stops. -/
structure Capture where
  index : Nat
  start : Cursor
  stop : Cursor
  deriving Repr, DecidableEq

abbrev Groups := List Capture

inductive Regex where
  | empty
  | one (accepts : Char → Bool)
  /-- Matches the empty text at the places where a condition holds. -/
  | assert (holds : Cursor → Bool)
  | seq (first second : Regex)
  | alt (first second : Regex)
  | many (greedy : Bool) (body : Regex)
  | capture (index : Nat) (body : Regex)

namespace Regex

variable {α : Type}

/-- The rest of a search: what remains to be done from a place, with the groups captured so far. -/
abbrev Continuation (α : Type) := Cursor → Groups → Option α

/-- Further rounds of a repetition from a place that the round before has just reached. A further
round has to read something. The first argument bounds the number of rounds; the text ahead is
always long enough. -/
def rounds (body : Cursor → Groups → Continuation α → Option α) (greedy : Bool)
    (next : Continuation α) : Text → Continuation α
  | [], cursor, groups => next cursor groups
  | _ :: bound, cursor, groups =>
    let again := fun (_ : Unit) =>
      body cursor groups fun reached groups =>
        if cursor.index < reached.index then rounds body greedy next bound reached groups
        else none
    if greedy then
      match again () with
      | some result => some result
      | none => next cursor groups
    else
      match next cursor groups with
      | some result => some result
      | none => again ()

/-- Search for a way to match an expression at a place such that the continuation succeeds. The
first round of a repetition may read nothing, and is then the only one. -/
def run : Regex → Cursor → Groups → Continuation α → Option α
  | .empty, cursor, groups, next => next cursor groups
  | .one accepts, cursor, groups, next =>
    match cursor.after with
    | [] => none
    | c :: rest => if accepts c then next (cursor.step c rest) groups else none
  | .assert holds, cursor, groups, next => if holds cursor then next cursor groups else none
  | .seq first second, cursor, groups, next =>
    first.run cursor groups fun cursor groups => second.run cursor groups next
  | .alt first second, cursor, groups, next =>
    match first.run cursor groups next with
    | some result => some result
    | none => second.run cursor groups next
  | .many greedy body, cursor, groups, next =>
    body.run cursor groups fun reached groups =>
      if cursor.index < reached.index then
        rounds body.run greedy next reached.after reached groups
      else next reached groups
  | .capture index body, cursor, groups, next =>
    body.run cursor groups fun reached groups =>
      next reached (⟨index, cursor, reached⟩ :: groups)

end Regex

end PrimePlus
