import PrimePlus.Text.Basic

/-!
Simple case folding, and the class of characters with the same image.
-/

namespace PrimePlus.Unicode

/-- Code points from `first` to `last` in steps of `stride`, each folded by adding `shift`. -/
structure FoldRun where
  first : Nat
  last : Nat
  stride : Nat
  shift : Int

/-- The runs given by the distance of each from the start of the one before, the distance to its own
end, its stride and its shift. -/
def spacedRuns : Nat → List Int → List FoldRun
  | start, gap :: extent :: stride :: shift :: rest =>
    let first := start + gap.toNat
    ⟨first, first + extent.toNat, stride.toNat, shift⟩ :: spacedRuns first rest
  | _, _ => []

set_option maxRecDepth 4000 in
def foldRuns : List FoldRun :=
  spacedRuns 0 [192,22,1,32,24,6,1,32,40,46,2,1,50,4,2,1,7,14,2,1,17,44,2,1,46,0,1,-121,1,4,2,1,6,0,
    1,-268,2,0,1,210,1,2,2,1,4,0,1,206,1,0,1,1,2,1,1,205,2,0,1,1,3,0,1,79,1,0,1,202,1,0,1,203,1,0,1,
    1,2,0,1,205,1,0,1,207,2,0,1,211,1,0,1,209,1,0,1,1,4,0,1,211,1,0,1,213,2,0,1,214,1,4,2,1,6,0,1,
    218,1,0,1,1,2,0,1,218,3,0,1,1,2,0,1,218,1,0,1,1,2,1,1,217,2,2,2,1,4,0,1,219,1,0,1,1,4,0,1,1,8,0,
    1,2,1,0,1,1,2,0,1,2,1,0,1,1,2,0,1,2,1,16,2,1,19,16,2,1,19,0,1,2,1,2,2,1,4,0,1,-97,1,0,1,-56,1,
    38,2,1,40,0,1,-130,2,16,2,1,24,0,1,10795,1,0,1,1,2,0,1,-163,1,0,1,10792,3,0,1,1,2,0,1,-195,1,0,
    1,69,1,0,1,71,1,8,2,1,255,0,1,116,43,2,2,1,6,0,1,1,9,0,1,116,7,0,1,38,2,2,1,37,4,0,1,64,2,1,1,
    63,3,10,1,32,11,0,1,-743,1,4,1,32,6,0,1,31,1,7,1,32,24,0,1,-775,7,0,1,-1,12,0,1,8,1,0,1,-30,1,0,
    1,-25,4,0,1,-15,1,0,1,-22,2,22,2,1,24,0,1,-54,1,0,1,-48,3,0,1,-60,1,0,1,-64,2,0,1,1,2,0,1,-7,1,
    0,1,1,3,2,1,-130,3,15,1,80,16,31,1,32,80,32,2,1,42,52,2,1,54,0,1,15,1,12,2,1,15,94,2,1,97,37,1,
    48,2927,37,1,7264,39,0,1,7264,6,0,1,7264,723,79,1,38864,80,5,1,8,2192,0,1,-6222,1,0,1,-6221,1,0,
    1,-6212,1,1,1,-6210,2,0,1,-6211,1,0,1,-6204,1,0,1,-6180,2,0,1,1,7,42,1,-3008,45,2,1,-3008,323,
    148,2,1,155,0,1,-58,3,0,1,-7615,2,94,2,1,104,7,1,-8,16,5,1,-8,16,7,1,-8,16,7,1,-8,16,5,1,-8,17,
    6,2,-8,15,7,1,-8,32,7,1,-8,16,7,1,-8,16,7,1,-8,16,1,1,-8,2,1,1,-74,2,0,1,-9,2,0,1,-7173,10,3,1,
    -86,4,0,1,-9,7,0,1,-7235,5,1,1,-8,2,1,1,-100,9,0,1,-7219,5,1,1,-8,2,1,1,-112,2,0,1,-7,12,1,1,
    -128,2,1,1,-126,2,0,1,-9,298,0,1,-7517,4,0,1,-8383,1,0,1,-8262,7,0,1,28,46,15,1,16,35,0,1,1,819,
    25,1,26,1866,47,1,48,96,0,1,1,2,0,1,-10743,1,0,1,-3814,1,0,1,-10727,3,4,2,1,6,0,1,-10780,1,0,1,
    -10749,1,0,1,-10783,1,0,1,-10782,2,0,1,1,3,0,1,1,9,1,1,-10815,2,98,2,1,107,2,2,1,7,0,1,1,31054,
    8,2,1,10,0,1,-35266,1,0,1,-35267,1,32,2,1,52,26,2,1,162,12,2,1,16,60,2,1,71,2,2,1,4,0,1,-35332,
    1,8,2,1,13,0,1,1,2,0,1,-42280,3,2,2,1,6,18,2,1,20,0,1,-42308,1,0,1,-42319,1,0,1,-42315,1,0,1,
    -42305,1,0,1,-42308,2,0,1,-42258,1,0,1,-42282,1,0,1,-42261,1,0,1,928,1,14,2,1,16,0,1,-48,1,0,1,
    -42307,1,0,1,-35384,1,2,2,1,4,0,1,-42343,1,0,1,1,4,0,1,1,6,4,2,1,6,0,1,-42561,25,0,1,1,21265,0,
    1,-1,1051,25,1,32,1247,39,1,40,176,35,1,40,192,36,2,39,1,8,2,39,12,12,2,39,16,4,2,39,8,0,1,39,
    1771,50,1,64,208,21,1,32,2896,31,1,32,21920,31,1,32,31424,33,1,34]

def FoldRun.holds (run : FoldRun) (point : Nat) : Bool :=
  run.first ≤ point && point ≤ run.last && (point - run.first) % run.stride == 0

def foldCase (c : Char) : Char :=
  if c.toNat < 0x80 then c.toLower
  else match foldRuns.find? fun run => run.holds c.toNat with
    | some run => Char.ofNat ((c.toNat : Int) + run.shift).toNat
    | none => c

def unfoldings (c : Char) : Text :=
  (foldRuns.filter fun run => run.holds ((c.toNat : Int) - run.shift).toNat).map fun run =>
    Char.ofNat ((c.toNat : Int) - run.shift).toNat

def caseVariants (c : Char) : Text :=
  let folded := foldCase c
  if folded.toNat < 0x80 then
    [folded, folded.toUpper] ++
      (if folded = 'k' then ['\u212A'] else if folded = 's' then ['\u017F'] else [])
  else folded :: unfoldings folded

end PrimePlus.Unicode
