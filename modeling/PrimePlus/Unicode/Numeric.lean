import PrimePlus.Unicode.Ranges

/-!
Characters that stand for numbers: decimal digits, letter numbers and other numeric signs.
-/

namespace PrimePlus.Unicode

/-- The decimal digits, by version 16 of the standard. -/
def decimalRanges : Ranges :=
  spaced 0 [1632,9,134,9,198,9,412,9,118,9,118,9,118,9,118,9,118,9,118,9,118,9,118,9,118,9,96,9,118,
    9,70,9,278,9,70,9,1862,9,38,9,300,9,128,9,166,9,6,9,182,9,86,9,134,9,6,9,35270,9,678,9,38,9,198,
    9,22,9,86,9,406,9,21270,9,1414,9,2182,9,6,9,796,9,128,9,60,9,144,9,278,9,342,9,118,9,374,9,102,
    9,6,19,76,9,422,9,102,9,662,9,86,9,246,9,70,9,422,9,16854,9,2342,9,86,9,134,9,534,9,24438,9,
    2772,49,2368,9,422,9,502,9,247,9,853,9,4758,9]

def otherNumberRanges : Ranges :=
  spaced 0 [178,1,5,0,2,2,2357,5,376,5,120,2,133,6,217,6,17,8,433,9,1077,19,881,2,255,9,480,0,1685,
    0,3,5,6,9,198,50,2,4,726,59,78,21,630,29,1385,0,777,0,25,8,14,2,343,3,138,9,30,7,1,14,32,9,39,
    14,29734,9,320,5,22737,44,12,56,17,1,341,26,36,3,29,0,8,0,134,4,1154,7,25,6,39,8,75,4,22,5,160,
    1,2,15,2,45,64,8,52,1,30,2,75,4,104,7,24,7,41,6,330,5,352,30,158,9,42,3,112,6,134,19,379,19,
    1349,1,430,8,871,18,371,9,470,20,1067,110,18156,6,798,22,349,2,25289,19,12,19,108,24,5454,8,929,
    58,1,2,1,3,76,44,1,14,962,12]

def isNumeric (c : Char) : Bool :=
  if c.toNat < 0x80 then c.isDigit
  else decimalRanges.holds c.toNat || otherNumberRanges.holds c.toNat

end PrimePlus.Unicode
