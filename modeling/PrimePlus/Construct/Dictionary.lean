import PrimePlus.Environment

/-!
Dictionaries, which give names to the parts of one variable: after

    dict width, height[2], origin := {0,0} box;

`box.width` stands for `box`, `box.height` for `box[2]`, and `box.origin` for `{0,0}`.
-/

namespace PrimePlus.Construct

open Regex

def dictionaryPattern : Regex :=
  all [front, lit "dict", blanks1, .capture 1 (plus notNewline), blanks1, .capture 2 name, blanks,
    char ';', back]

def fieldPattern : Regex :=
  all [front, .capture 1 name, .capture 2 (star notNewline), back]

def declareField (owner : Text) (env : Environment) (field : Text) : Environment :=
  let (head, value) := match Text.cutAt? ":=".toList field with
    | some (head, value) => (Text.trim head, some (Text.trim value))
    | none => (Text.trim field, none)
  match fieldPattern.find? head with
  | none => env.report .error ("invalid dict field '".toList ++ Text.trim field ++ ['\''])
  | some found =>
    env.declare
      { identifier := owner ++ '.' :: found.group 1,
        real := value.getD (owner ++ Text.trim (found.group 2)),
        kind := .member }

def dictionary? (env : Environment) (line : Text) : Option Environment :=
  (dictionaryPattern.find? (Text.trim line)).map fun found =>
    (Lexical.splitTop ',' (found.group 1)).foldl (declareField (found.group 2)) env

end PrimePlus.Construct
