import PrimePlus.Unicode.Alphabetic
import PrimePlus.Unicode.Numeric

/-!
The classes `\w` and `\d` of a pattern, by version 16 of the character standard, while the names of
the language follow version 17.
-/

namespace PrimePlus.Unicode

/-- Where the class of words differs from the letters and decimal digits. -/
def wordDifferences : Ranges :=
  spaced 0 [768,68,1,28,288,6,263,30,168,0,134,1,9,2,83,10,160,8,9,0,26,1,19,0,43,2,51,0,8,7,42,9,
    12,1,8,5,76,0,16,0,3,3,103,0,16,0,48,0,61,0,16,0,110,0,16,0,47,2,60,0,16,0,7,0,119,0,110,0,16,0,
    14,0,95,0,16,0,14,0,94,1,16,0,124,0,124,5,1,0,107,0,13,4,1,0,73,1,27,0,1,0,1,0,4,1,68,0,1,1,62,
    0,112,0,1,1,802,2,948,1,30,0,127,1,19,10,9,0,45,2,1,0,297,2,292,0,20,7,2,0,48,14,2,10,104,0,15,
    0,38,8,54,1,58,0,11,1,67,0,152,2,1,20,4,0,6,0,2,2,198,18,34,10,524,1,49,1,19,0,123,32,3070,2,
    141,0,682,5,105,1,30164,3,9,1,114,1,220,1,2,0,1,0,28,0,20,0,37,0,151,0,27,17,57,2,37,0,95,0,12,
    0,254,0,1,0,52,0,245,1,21010,15,16,15,3,1,24,2,239,0,701,0,226,0,1631,25,222,2,4,0,165,1,643,3,
    343,2,50,1,1,2,70,10,49,3,192,0,41,0,14,0,57,1,120,1,62,0,76,0,8,3,104,1,178,1,80,1,16,0,24,6,3,
    4,89,2,1,0,14,1,95,0,3,0,23,0,99,1,251,1,126,0,118,1,115,0,269,1,258,1,4,0,156,0,82,1,18,0,80,1,
    198,7,215,0,258,0,1,1,81,0,24,43,357,1,23,0,5349,0,6,14,11481,0,2496,4,59,6,873,24,2,24,272,0,
    13,4,6145,7,1289,21,97,114,11946,0,4706,45,2,22,542,4,3,5,8,7,2,6,30,3,148,2,1979,54,4,49,8,0,
    14,0,22,4,1,14,1664,6,375,0,61,3,508,3,254,1,208,30,1,21,8,1,464,6,109,2,1,2,52719,5,5986,11,
    21762,4297,707718,239]

def isWordChar (c : Char) : Bool :=
  if c.toNat < 0x80 then c.isAlphanum || c == '_'
  else (alphabeticRanges.holds c.toNat || decimalRanges.holds c.toNat) !=
    wordDifferences.holds c.toNat

def isDecimal (c : Char) : Bool :=
  if c.toNat < 0x80 then c.isDigit else decimalRanges.holds c.toNat

end PrimePlus.Unicode
