import PrimePlus.CharSet.Basic
import PrimePlus.Text.Basic

/-!
Character properties in coded form. A table is a text with semicolons between the properties, equals
signs between the names of a property and its codes, and commas between names. Each interval is
written as the gap since the interval before and the number of its further code points. The leading
digits of a number are capital letters, in base 26. The last digit is a small letter, or a decimal
one for the gap before a single code point. A number before a star tells how often a gap is
repeated. -/

namespace PrimePlus.Unicode

/-- A property: its names in lower case without separators, and its coded intervals. -/
structure CodedProperty where
  names : List String
  code : Text

/-- The intervals from a code point on, where the gap before the next one was read or not, the next
single code point is repeated, and the leading digits of a number have the given value. -/
def decodeFrom (next : Nat) (gap : Option Nat) (times lead : Nat) : Text → Ranges
  | [] => []
  | c :: cs =>
    if c.isUpper then decodeFrom next gap times (26 * lead + (c.toNat - 'A'.toNat)) cs
    else if c = '*' then decodeFrom next gap lead 0 cs
    else if c.isDigit then
      let before := 10 * lead + (c.toNat - '0'.toNat)
      (List.range times).map (fun n =>
        let point := next + n * (before + 1) + before
        (point, point)) ++ decodeFrom (next + times * (before + 1)) none 1 0 cs
    else
      let number := 26 * lead + (c.toNat - 'a'.toNat)
      match gap with
      | none => decodeFrom next (some number) 1 0 cs
      | some before =>
        let last := next + before + number
        (next + before, last) :: decodeFrom (last + 1) none 1 0 cs

def decode (code : Text) : Ranges :=
  decodeFrom 0 none 1 0 code

def CodedProperty.ranges (property : CodedProperty) : Ranges :=
  decode property.code

def lookup (table : List CodedProperty) (name : String) : Option Ranges :=
  (table.find? fun property => property.names.contains name).map CodedProperty.ranges

/-- A property told by the coded intervals in which it differs from the union of others. -/
structure DerivedProperty where
  names : List String
  base : List String
  code : Text

def fields (table : String) : List (List Text) :=
  (Text.splitOn ';' (table.toList.filter fun c => !c.isWhitespace)).map (Text.splitOn '=')

def words (t : Text) : List String :=
  (Text.splitOn ',' t).map String.ofList

def codedTable (table : String) : List CodedProperty :=
  (fields table).filterMap fun
    | names :: code :: _ => some ⟨words names, code⟩
    | _ => none

def derivedTable (table : String) : List DerivedProperty :=
  (fields table).filterMap fun
    | [names, base, code] => some ⟨words names, words base, code⟩
    | _ => none

def DerivedProperty.members (table : List CodedProperty) (property : DerivedProperty) : CharSet :=
  (CharSet.ofRanges (property.base.flatMap fun name => (lookup table name).getD [])).symmDiff
    ⟨decode property.code⟩

/-- The characters with the named property, whether it stands in a table or is derived. -/
def lookupSet (base table : List CodedProperty) (derived : List DerivedProperty) (name : String) :
    Option CharSet :=
  ((lookup table name).map CharSet.mk).or
    ((derived.find? fun property => property.names.contains name).map
      (DerivedProperty.members (base ++ table)))

end PrimePlus.Unicode
