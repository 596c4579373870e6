import PrimePlus.Unicode.WordClass

/-!
The character classes by which text is cut into words.
-/

namespace PrimePlus.Unicode

def isBlank (c : Char) : Bool :=
  let n := c.toNat
  (0x9 ≤ n && n ≤ 0xD) || n == 0x20 || n == 0x85 || n == 0xA0 || n == 0x1680 ||
    (0x2000 ≤ n && n ≤ 0x200A) || n == 0x2028 || n == 0x2029 || n == 0x202F || n == 0x205F ||
    n == 0x3000

def isAlphanumeric (c : Char) : Bool :=
  isAlphabetic c || isNumeric c

def isNameChar (c : Char) : Bool :=
  isAlphanumeric c || c == '_'

end PrimePlus.Unicode
