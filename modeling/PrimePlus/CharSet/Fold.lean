import PrimePlus.CharSet.Basic
import PrimePlus.Unicode.CaseFold

/-!
Sets of characters closed under change of case.
-/

namespace PrimePlus.CharSet

open Unicode (FoldRun foldRuns)

def runPoints (run : FoldRun) : List (Nat × Nat) :=
  (List.range ((run.last - run.first) / run.stride + 1)).map fun k =>
    let n := run.first + run.stride * k
    (n, ((n : Int) + run.shift).toNat)

/-- Every code point that is folded to another, with that other one. -/
def foldPairs : List (Nat × Nat) :=
  (List.range 26).map (fun k => (0x41 + k, 0x61 + k)) ++ foldRuns.flatMap runPoints

def images (set : CharSet) : CharSet :=
  ofRanges (foldPairs.filterMap fun pair =>
    if holdsIn pair.1 set.ranges then some (pair.2, pair.2) else Option.none)

def sources (set : CharSet) : CharSet :=
  ofRanges (foldPairs.filterMap fun pair =>
    if holdsIn pair.2 set.ranges then some (pair.1, pair.1) else Option.none)

def foldCase (set : CharSet) : CharSet :=
  let folded : CharSet := ⟨join (set.ranges.merge set.images.ranges precedes)⟩
  folded.union folded.sources

def foldAsciiCase (set : CharSet) : CharSet :=
  let shifted := fun (low high : Nat) (shift : Int) =>
    (meet set.ranges [(low, high)]).map fun range =>
      (((range.1 : Int) + shift).toNat, ((range.2 : Int) + shift).toNat)
  ofRanges (set.ranges ++ shifted 0x61 0x7A (-32) ++ shifted 0x41 0x5A 32)

end PrimePlus.CharSet
