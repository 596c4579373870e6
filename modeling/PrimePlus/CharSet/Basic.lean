import PrimePlus.Unicode.Ranges

/-!
Sets of characters as lists of ascending closed intervals of code points.
-/

namespace PrimePlus

open Unicode (Ranges)

structure CharSet where
  ranges : Ranges
  deriving Repr, DecidableEq

namespace CharSet

def lastPoint : Nat := 0x10FFFF

def none : CharSet :=
  ⟨[]⟩

def interval (low high : Nat) : CharSet :=
  ⟨[(low, high)]⟩

def point (n : Nat) : CharSet :=
  interval n n

def holdsIn (n : Nat) : Ranges → Bool
  | [] => false
  | range :: rest => if n < range.1 then false else n ≤ range.2 || holdsIn n rest

def contains (set : CharSet) (c : Char) : Bool :=
  holdsIn c.toNat set.ranges

def isEmpty (set : CharSet) : Bool :=
  set.ranges.isEmpty

def isAscii (set : CharSet) : Bool :=
  set.ranges.all fun range => range.2 ≤ 0x7F

def joinFrom (current : Nat × Nat) : Ranges → Ranges
  | [] => [current]
  | next :: rest =>
    if next.1 ≤ current.2 + 1 then joinFrom (current.1, max current.2 next.2) rest
    else current :: joinFrom next rest

def join : Ranges → Ranges
  | [] => []
  | first :: rest => joinFrom first rest

def precedes (left right : Nat × Nat) : Bool :=
  left.1 < right.1 || (left.1 == right.1 && left.2 ≤ right.2)

def ofRanges (ranges : Ranges) : CharSet :=
  ⟨join (ranges.mergeSort precedes)⟩

def union (left right : CharSet) : CharSet :=
  if right.ranges.isEmpty || left == right then left
  else ⟨join (left.ranges.merge right.ranges precedes)⟩

def before (n : Nat) : Nat :=
  if n = 0xE000 then 0xD7FF else n - 1

def after (n : Nat) : Nat :=
  if n = 0xD7FF then 0xE000 else n + 1

def gapsAfter (top last : Nat) : Ranges → Ranges
  | [] => if last < top then [(after last, top)] else []
  | range :: rest => (after last, before range.1) :: gapsAfter top range.2 rest

def gaps (top : Nat) : Ranges → Ranges
  | [] => [(0, top)]
  | range :: rest =>
    (if 0 < range.1 then [(0, before range.1)] else []) ++ gapsAfter top range.2 rest

/-- The characters up to the top that are not in a set. Between neighbours that are not joined the
gap has its ends the other way round, and counts as the interval of the two neighbours. -/
def complement (top : Nat) (set : CharSet) : CharSet :=
  ⟨(gaps top set.ranges).map fun range => (min range.1 range.2, max range.1 range.2)⟩

def meet : Ranges → Ranges → Ranges
  | [], _ => []
  | _, [] => []
  | (low, high) :: left, (low', high') :: right =>
    let rest := if high < high' then meet left ((low', high') :: right)
      else meet ((low, high) :: left) right
    if max low low' ≤ min high high' then (max low low', min high high') :: rest else rest
  termination_by left right => left.length + right.length

def inter (left right : CharSet) : CharSet :=
  ⟨meet left.ranges right.ranges⟩

def diff (left right : CharSet) : CharSet :=
  ⟨meet left.ranges ((gaps lastPoint right.ranges).filter fun range => range.1 ≤ range.2)⟩

def symmDiff (left right : CharSet) : CharSet :=
  (left.union right).diff (left.inter right)

def single? (set : CharSet) : Option Nat :=
  match set.ranges with
  | [(low, high)] => if low = high then some low else Option.none
  | _ => Option.none

end CharSet

end PrimePlus
