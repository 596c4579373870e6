import PrimePlus.Encoding.Utf8

/-!
Intervals of characters in their UTF-8 form, each as several sequences of byte intervals.
-/

namespace PrimePlus.Encoding.Utf8

def pointBytes (n : Nat) : List Nat :=
  (encodeChar (Char.ofNat n)).map UInt8.toNat

/-- Where to cut an interval of code points that needs forms of different lengths, or reaches over
the surrogates: the end of the first part and the start of the second. -/
def lengthCut? (low high : Nat) : Option (Nat × Nat) :=
  if low < 0xE000 && 0xD7FF < high then some (0xD7FF, 0xE000)
  else [0x7F, 0x7FF, 0xFFFF].findSome? fun last =>
    if low ≤ last && last < high then some (last, last + 1) else none

/-- Where to cut an interval so that in each part the bytes after the first one that varies take all
their values. -/
def blockCut? (low high : Nat) : Option (Nat × Nat) :=
  [64, 4096, 262144].findSome? fun size =>
    let first := low / size * size
    let last := high / size * size
    if first = last then none
    else if first < low then some (first + size - 1, first + size)
    else if high < last + size - 1 then some (last - 1, last)
    else none

/-- The sequences of byte intervals of an interval of code points. The first argument bounds the
number of cuts that follow one another. -/
def byteRangesWithin : Nat → Nat → Nat → List (List (Nat × Nat))
  | 0, _, _ => []
  | fuel + 1, low, high =>
    if high < low then []
    else
      let cut := (lengthCut? low high).or (if high < 0x80 then none else blockCut? low high)
      match cut with
      | some (last, first) => byteRangesWithin fuel low last ++ byteRangesWithin fuel first high
      | none => [(pointBytes low).zip (pointBytes high)]

def byteRanges (low high : Nat) : List (List (Nat × Nat)) :=
  byteRangesWithin 32 low high

end PrimePlus.Encoding.Utf8
