import PrimePlus.Regex.Build
import PrimePlus.Regex.First

/-!
Finding matches in a text, from left to right without overlap.
-/

namespace PrimePlus

structure Match where
  start : Cursor
  stop : Cursor
  groups : Groups
  deriving Repr

namespace Match

def text (found : Match) : Text :=
  found.start.spanTo found.stop

def length (found : Match) : Nat :=
  found.stop.index - found.start.index

/-- The text captured by a group, where the group took part; group 0 is the whole match. -/
def group? (found : Match) (index : Nat) : Option Text :=
  if index = 0 then some found.text
  else (found.groups.find? fun capture => capture.index == index).map fun capture =>
    capture.start.spanTo capture.stop

/-- The text captured by a group, empty where the group took no part. -/
def group (found : Match) (index : Nat) : Text :=
  (found.group? index).getD []

def lead (found : Match) : Text :=
  found.start.before.reverse

def tail (found : Match) : Text :=
  found.stop.after

end Match

namespace Regex

def matchAt (r : Regex) (cursor : Cursor) : Option Match :=
  r.run cursor [] fun stop groups => some ⟨cursor, stop, groups⟩

theorem matchAt_eq_none (r : Regex) (index : Nat) (before : Text) (c : Char) (cs : Text)
    (blocked : r.first.admits c = false) : r.matchAt ⟨index, before, c :: cs⟩ = none := by
  have both := Bool.or_eq_false_iff.mp blocked
  apply run_eq_none
  · intro d ahead
    cases ahead
    exact both.2
  · intro nullable
    exact absurd nullable (by simp [both.1])

/-- The leftmost match at or after a place, tried only where one can start. -/
def seek (r : Regex) (starts : First) (index : Nat) (before : Text) : Text → Option Match
  | [] => r.matchAt ⟨index, before, []⟩
  | c :: cs =>
    if starts.admits c then
      match r.matchAt ⟨index, before, c :: cs⟩ with
      | some found => some found
      | none => seek r starts (index + 1) (c :: before) cs
    else seek r starts (index + 1) (c :: before) cs

def findFrom (r : Regex) (index : Nat) (before after : Text) : Option Match :=
  r.seek r.first index before after

theorem findFrom_nil (r : Regex) (index : Nat) (before : Text) :
    r.findFrom index before [] = r.matchAt ⟨index, before, []⟩ :=
  rfl

theorem findFrom_cons (r : Regex) (index : Nat) (before : Text) (c : Char) (cs : Text) :
    r.findFrom index before (c :: cs) =
      (r.matchAt ⟨index, before, c :: cs⟩).or (r.findFrom (index + 1) (c :: before) cs) := by
  have step : r.findFrom index before (c :: cs) =
      if r.first.admits c then
        match r.matchAt ⟨index, before, c :: cs⟩ with
        | some found => some found
        | none => r.findFrom (index + 1) (c :: before) cs
      else r.findFrom (index + 1) (c :: before) cs := rfl
  rw [step]
  split
  · split <;> simp [*]
  · next blocked =>
    rw [matchAt_eq_none r index before c cs (by simpa using blocked)]
    rfl

def find? (r : Regex) (t : Text) : Option Match :=
  r.findFrom 0 [] t

def isMatch (r : Regex) (t : Text) : Bool :=
  (r.find? t).isSome

inductive Piece where
  | gap (c : Char)
  | hit (found : Match)

/-- The pieces from a place on, matches being tried only where one can start. `fresh` says that no
match ended here, and `skip` is the number of characters that still belong to the match found
last. -/
def piecesFrom (r : Regex) (starts : First) :
    Bool → Nat → Nat → Text → Text → List Piece
  | fresh, skip, index, before, [] =>
    if skip = 0 && fresh then
      match r.matchAt ⟨index, before, []⟩ with
      | some found => [.hit found]
      | none => []
    else []
  | fresh, skip + 1, index, before, c :: cs =>
    piecesFrom r starts fresh skip (index + 1) (c :: before) cs
  | fresh, 0, index, before, c :: cs =>
    match (if starts.admits c then r.matchAt ⟨index, before, c :: cs⟩ else none) with
    | none => .gap c :: piecesFrom r starts true 0 (index + 1) (c :: before) cs
    | some found =>
      if found.length = 0 then
        (if fresh then [.hit found] else []) ++
          .gap c :: piecesFrom r starts true 0 (index + 1) (c :: before) cs
      else .hit found :: piecesFrom r starts false (found.length - 1) (index + 1) (c :: before) cs

def pieces (r : Regex) (t : Text) : List Piece :=
  r.piecesFrom r.first true 0 0 [] t

theorem matchAt_of_admits (r : Regex) (index : Nat) (before : Text) (c : Char) (cs : Text) :
    (if r.first.admits c then r.matchAt ⟨index, before, c :: cs⟩ else none) =
      r.matchAt ⟨index, before, c :: cs⟩ := by
  split
  · rfl
  · next blocked => exact (matchAt_eq_none r index before c cs (by simpa using blocked)).symm

def hits : List Piece → List Match
  | [] => []
  | .gap _ :: rest => hits rest
  | .hit found :: rest => found :: hits rest

def assemble (image : Match → Text) : List Piece → Text
  | [] => []
  | .gap c :: rest => c :: assemble image rest
  | .hit found :: rest => image found ++ assemble image rest

def findAll (r : Regex) (t : Text) : List Match :=
  hits (r.pieces t)

/-- Every match replaced by what a function makes of it. A text without a match is not taken
apart. -/
def replaceAll (r : Regex) (t : Text) (image : Match → Text) : Text :=
  if r.isMatch t then assemble image (r.pieces t) else t

theorem assemble_map_gap (image : Match → Text) (t : Text) :
    assemble image (t.map .gap) = t := by
  induction t with
  | nil => rfl
  | cons c cs ih => simp [assemble, ih]

theorem piecesFrom_eq_map_gap (r : Regex) (index : Nat) (before t : Text)
    (absent : r.findFrom index before t = none) :
    r.piecesFrom r.first true 0 index before t = t.map .gap := by
  induction t generalizing index before with
  | nil =>
    rw [findFrom_nil] at absent
    simp [piecesFrom, absent]
  | cons c cs ih =>
    rw [findFrom_cons, Option.or_eq_none_iff] at absent
    rw [piecesFrom, matchAt_of_admits, absent.1]
    simp [ih (index + 1) (c :: before) absent.2]

theorem replaceAll_eq_assemble (r : Regex) (t : Text) (image : Match → Text) :
    r.replaceAll t image = assemble image (r.pieces t) := by
  unfold replaceAll
  split
  · rfl
  · next absent =>
    have none : r.findFrom 0 [] t = none := by simpa [isMatch, find?] using absent
    rw [pieces, piecesFrom_eq_map_gap r 0 [] t none, assemble_map_gap]

def replaceAllWith (r : Regex) (t : Text) (image : String) : Text :=
  r.replaceAll t fun _ => image.toList

def replaceFirst (r : Regex) (t : Text) (image : Match → Text) : Text :=
  match r.find? t with
  | some found => found.lead ++ image found ++ found.tail
  | none => t

end Regex

end PrimePlus
