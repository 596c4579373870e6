import PrimePlus.Environment

/-!
The stash: texts that pattern rules put aside. In a line, ``__PUSH__`text` `` puts a text on the
stash, `__POP__` stands for the text on top and takes it off, and `__TOP__` stands for it.
-/

namespace PrimePlus.Construct

open Regex

abbrev Stash := List Text

def stashPattern : Regex :=
  any [all [lit "__PUSH__`", .capture 1 (star (noneOf "`")), char '\x60'], lit "__POP__",
    lit "__TOP__"]

def emptyStash (word : Text) : Text :=
  word ++ " on an empty code stack".toList

def unstash : Stash → Environment → List Piece → Text × Stash × Environment
  | stash, env, [] => ([], stash, env)
  | stash, env, .gap c :: rest =>
    let (line, stash, env) := unstash stash env rest
    (c :: line, stash, env)
  | stash, env, .hit found :: rest =>
    match found.group? 1, stash with
    | some pushed, _ => unstash (pushed :: stash) env rest
    | none, top :: below =>
      let (line, stash, env) :=
        unstash (if found.text = "__POP__".toList then below else stash) env rest
      (top ++ line, stash, env)
    | none, [] => unstash stash (env.report .warning (emptyStash found.text)) rest

def stash? (stash : Stash) (env : Environment) (line : Text) :
    Option (Text × Stash × Environment) :=
  if stashPattern.isMatch line then some (unstash stash env (stashPattern.pieces line)) else none

end PrimePlus.Construct
