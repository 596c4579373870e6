import PrimePlus.Text.Basic

/-!
The settings of a compilation, and the name and version of the program.
-/

namespace PrimePlus

structure Config where
  /-- Where included libraries are looked for. -/
  libraryPath : Text := "/Applications/HP/PrimeSDK/pplib".toList
  /-- Spaces for a level of nesting in the generated program. -/
  indentWidth : Nat := 2
  tabWidth : Nat := 4
  /-- How many passes a substitution may take to settle. -/
  maxPasses : Nat := 32
  minify : Bool := false
  reformat : Bool := false
  pragmaPreamble : Bool := false
  deriving Repr, DecidableEq

def version : Nat × Nat × Nat := (0, 1, 0)

def versionText : Text :=
  Text.ofNat version.1 ++ ['.'] ++ Text.ofNat version.2.1 ++ ['.'] ++ Text.ofNat version.2.2

def features : List Text :=
  ["core", "minify", "reformat", "utf16le"].map String.toList

def buildInfo : Text :=
  "pplus ".toList ++ versionText ++ " (".toList ++ Text.join ", ".toList features ++ [')']

end PrimePlus
