import PrimePlus.Text.Basic

/-!
String literals and the placeholders that stand for them while a line is worked on.
-/

namespace PrimePlus.Lexical

/-- The number of characters up to and including the quote that ends a literal, counted from after
the quote that starts it. A backslash takes the next character into the literal. -/
def literalLength? : Bool → Text → Option Nat
  | _, [] => none
  | true, _ :: cs => (literalLength? false cs).map (· + 1)
  | false, c :: cs =>
    if c = '"' then some 1
    else (literalLength? (c == '\\') cs).map (· + 1)

inductive Part where
  | code (c : Char)
  | literal (t : Text)
  /-- A quote that is never closed, with all that follows it. -/
  | unclosed (t : Text)
  deriving Repr, DecidableEq

/-- The parts of a text, of which `skip` characters belong to the literal before. -/
def partsFrom : Nat → Text → List Part
  | _, [] => []
  | skip + 1, _ :: cs => partsFrom skip cs
  | 0, c :: cs =>
    if c = '"' then
      match literalLength? false cs with
      | some n => .literal (c :: cs.take n) :: partsFrom n cs
      | none => [.unclosed (c :: cs)]
    else .code c :: partsFrom 0 cs

def parts (t : Text) : List Part :=
  partsFrom 0 t

def Part.text : Part → Text
  | .code c => [c]
  | .literal t => t
  | .unclosed t => t

def literals (t : Text) : List Text :=
  (parts t).filterMap fun part =>
    match part with
    | .literal t => some t
    | _ => none

def marker : Char := '\uE000'

def markedDigit (d : Nat) : Char :=
  Char.ofNat (0xE010 + d)

def markedDigit? (c : Char) : Option Nat :=
  if 0xE010 ≤ c.toNat && c.toNat < 0xE020 then some (c.toNat - 0xE010) else none

/-- The digits of a number in private-use characters, in front of digits already written. -/
def markedDigitsGo (n : Nat) (written : Text) : Text :=
  if h : n < 16 then markedDigit n :: written
  else markedDigitsGo (n / 16) (markedDigit (n % 16) :: written)
termination_by n
decreasing_by omega

def placeholder (index : Nat) : Text :=
  '"' :: marker :: markedDigitsGo index ['"']

/-- The number that marked digits up to a quote stand for, and how many characters they take with
the quote. At least one digit is needed. -/
def markedNumber? : Nat → Bool → Text → Option (Nat × Nat)
  | _, _, [] => none
  | value, seen, c :: cs =>
    if c = '"' && seen then some (value, 1)
    else (markedDigit? c).bind fun d =>
      (markedNumber? (16 * value + d) true cs).map fun (index, length) => (index, length + 1)

def placeholder? : Text → Option (Nat × Nat)
  | '"' :: c :: cs =>
    if c = marker then (markedNumber? 0 false cs).map fun (index, length) => (index, length + 2)
    else none
  | _ => none

def isPlaceholder (t : Text) : Bool :=
  (placeholder? t).any fun found => found.2 == t.length

/-- The literals that are taken out of a text, in the order of their numbers. -/
abbrev Store := List Text

/-- The text of parts in which placeholders stand for the literals, and the store that holds them. A
placeholder that is already there stays. -/
def protectParts : Store → List Part → Text × Store
  | store, [] => ([], store)
  | store, .literal t :: rest =>
    if isPlaceholder t then
      let (text, store) := protectParts store rest
      (t ++ text, store)
    else
      let (text, final) := protectParts (store ++ [t]) rest
      (placeholder store.length ++ text, final)
  | store, part :: rest =>
    let (text, store) := protectParts store rest
    (part.text ++ text, store)

/-- The text with placeholders for its literals, and the store that holds them after those that were
there before. -/
def protect (store : Store) (t : Text) : Text × Store :=
  protectParts store (parts t)

/-- The restored text, of which `skip` characters belong to the placeholder before. -/
def restoreFrom (store : Store) : Nat → Text → Text
  | _, [] => []
  | skip + 1, _ :: cs => restoreFrom store skip cs
  | 0, c :: cs =>
    match placeholder? (c :: cs) with
    | some (index, length) =>
      (store[index]?).getD ((c :: cs).take length) ++ restoreFrom store (length - 1) cs
    | none => c :: restoreFrom store 0 cs

/-- The text with each placeholder of the store replaced by its literal. A placeholder of another
store stays. -/
def restore (store : Store) (t : Text) : Text :=
  restoreFrom store 0 t

end PrimePlus.Lexical
