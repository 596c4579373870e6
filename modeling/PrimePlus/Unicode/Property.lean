import PrimePlus.Unicode.Age
import PrimePlus.Unicode.Boundary
import PrimePlus.Unicode.Category
import PrimePlus.Unicode.Script
import PrimePlus.Unicode.Trait

/-!
The classes of characters that a pattern can name.
-/

namespace PrimePlus.Unicode

def inCategories (codes : List String) : CharSet :=
  .ofRanges (codes.flatMap fun code => (lookup generalCategories code).getD [])

def assigned : CharSet :=
  .ofRanges (generalCategories.flatMap CodedProperty.ranges)

/-- The categories of characters with a visible form or a width. -/
def graphicCategories : List String :=
  ["lu", "ll", "lt", "lm", "lo", "mn", "mc", "me", "nd", "nl", "no", "pc", "pd", "ps", "pe", "pi",
   "pf", "po", "sm", "sc", "sk", "so", "zs", "zl", "zp"]

def category? (name : String) : Option CharSet :=
  if name = "any" then some (.interval 0 CharSet.lastPoint)
  else if name = "ascii" then some (.interval 0 0x7F)
  else if name = "assigned" then some assigned
  else if ["cn", "unassigned"].contains name then some (assigned.complement CharSet.lastPoint)
  else if ["l", "letter"].contains name then some (inCategories ["lu", "ll", "lt", "lm", "lo"])
  else if ["lc", "casedletter"].contains name then some (inCategories ["lu", "ll", "lt"])
  else if ["m", "mark", "combiningmark"].contains name then some (inCategories ["mn", "mc", "me"])
  else if ["n", "number"].contains name then some (inCategories ["nd", "nl", "no"])
  else if ["p", "punctuation", "punct"].contains name then
    some (inCategories ["pc", "pd", "ps", "pe", "pi", "pf", "po"])
  else if ["s", "symbol"].contains name then some (inCategories ["sm", "sc", "sk", "so"])
  else if ["z", "separator"].contains name then some (inCategories ["zs", "zl", "zp"])
  else if ["c", "other"].contains name then
    some ((inCategories graphicCategories).complement CharSet.lastPoint)
  else (lookup generalCategories name).map CharSet.mk

/-- The characters of the versions of the standard up to one of them. -/
def upToAge (name : String) : List CodedProperty → Option Ranges
  | [] => none
  | age :: later =>
    if age.names.contains name then some age.ranges
    else (upToAge name later).map (age.ranges ++ ·)

/-- A property name in the form in which names are compared: lower case, without spaces, hyphens
and underscores, and without a leading `is`. -/
def plainName (name : Text) : String :=
  let kept := (name.filter fun c => c.toNat < 0x80 && !" _-".toList.contains c).map Char.toLower
  let body := if ['i', 's'].isPrefixOf (name.map Char.toLower) then kept.drop 2 else kept
  if body == ['c'] && body.length < kept.length then "isc" else String.ofList body

def usedWith? (script : String) : Option CharSet :=
  (lookup scripts script).map fun members =>
    (CharSet.mk members).symmDiff ⟨(lookup scriptExtensions script).getD []⟩

def property? (name : Text) : Option CharSet :=
  let plain := plainName name
  ((category? plain).or (lookupSet generalCategories traits derivedTraits plain)).or
    ((lookup scripts plain).map CharSet.mk)

def propertyValue? (name value : Text) : Option CharSet :=
  let plain := plainName name
  let value := plainName value
  if ["gc", "generalcategory"].contains plain then category? value
  else if ["age"].contains plain then (upToAge value ages).map CharSet.ofRanges
  else if ["sc", "script"].contains plain then (lookup scripts value).map CharSet.mk
  else if ["scx", "scriptextensions"].contains plain then usedWith? value
  else if ["gcb", "graphemeclusterbreak"].contains plain then
    lookupSet (generalCategories ++ traits) graphemeBreaks derivedGraphemeBreaks value
  else if ["wb", "wordbreak"].contains plain then
    lookupSet generalCategories wordBreaks derivedWordBreaks value
  else if ["sb", "sentencebreak"].contains plain then
    lookupSet (generalCategories ++ traits) sentenceBreaks derivedSentenceBreaks value
  else none

end PrimePlus.Unicode
