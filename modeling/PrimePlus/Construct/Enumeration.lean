import PrimePlus.Environment

/-!
Enumerations: the items between `enum Name` and `end;` become identities `Name.item`.
-/

namespace PrimePlus.Construct

open Regex

def endPattern : Regex :=
  all [front, litAnyCase "end", blanks, char ';', back]

def enumerationPattern : Regex :=
  all [front, lit "enum", blanks1, .capture 1 letterName, back]

def signedDigits : Regex :=
  .seq (opt (char '-')) (plus digit)

def itemPattern : Regex :=
  all [.capture 1 letterName, blanks, opt (char ':'), char '=', blanks,
    .capture 2 (.alt
      (all [char '#', plus (oneOf "0123456789ABCDEF"), opt (.seq (char ':') signedDigits),
        opt (oneOf "bodh")])
      (all [signedDigits, opt (.seq (char '.') (plus digit)),
        opt (.seq (oneOf "eE") signedDigits)]))]

def declareItems (enumeration : Text) (env : Environment) (line : Text) : Environment :=
  (itemPattern.findAll line).foldl (fun env found =>
    [enumeration ++ "::".toList ++ found.group 1, enumeration ++ '.' :: found.group 1].foldl
      (fun env identifier =>
        env.declare { identifier := identifier, real := found.group 2, kind := .enumerator }) env)
    env

def enumeration? (opened : Option Text) (env : Environment) (line : Text) :
    Option (Option Text × Environment) :=
  let line := Text.trim line
  match opened with
  | some enumeration =>
    if endPattern.isMatch line then some (none, env)
    else some (some enumeration, declareItems enumeration env line)
  | none => (enumerationPattern.find? line).map fun found => (some (found.group 1), env)

end PrimePlus.Construct
