import PrimePlus.Environment

/-!
Directives: lines that start with a number sign. A skipped region evaluates no condition.
-/

namespace PrimePlus

open Regex

inductive Embedded where
  | python
  | ppl
  deriving Repr, DecidableEq

def Embedded.marker : Embedded → Text
  | .python => "#PYTHON".toList
  | .ppl => "#PPL".toList

def endMarker : Text := "#END".toList

inductive Directive where
  | none
  | consumed
  | inclusion (path : Text)
  | pass (line : Text)
  | embeddedStart (language : Embedded)
  | embeddedEnd (language : Embedded)
  deriving Repr, DecidableEq

structure DirectiveState where
  isSkipping : Bool := false
  /-- How many conditionals were started and not ended while lines were being skipped. -/
  skipped : Nat := 0
  embedded : List Embedded := []
  deriving Repr, DecidableEq

inductive DirectiveWord where
  | inclusion
  | definition
  | removal
  | pragma
  | ifDefined
  | ifUndefined
  | ifCompares
  | otherwise
  | finish
  | other
  deriving Repr, DecidableEq

namespace DirectiveWord

def spellings : List (String × DirectiveWord) :=
  [("include", .inclusion), ("define", .definition), ("undef", .removal), ("pragma", .pragma),
    ("ifdef", .ifDefined), ("ifndef", .ifUndefined), ("if", .ifCompares), ("else", .otherwise),
    ("endif", .finish), ("end", .finish)]

def ofText (t : Text) : DirectiveWord :=
  ((spellings.find? fun entry => entry.1.toList == t).map Prod.snd).getD .other

end DirectiveWord

namespace DirectiveState

def language? (state : DirectiveState) : Option Embedded :=
  state.embedded.head?

def skip (state : DirectiveState) : DirectiveWord → DirectiveState
  | .ifDefined | .ifUndefined | .ifCompares => { state with skipped := state.skipped + 1 }
  | .otherwise => if state.skipped = 0 then { state with isSkipping := false } else state
  | .finish =>
    match state.skipped with
    | 0 => { state with isSkipping := false }
    | skipped + 1 => { state with skipped := skipped }
  | _ => state

/-- The marker of an embedded block that a line is, and the state after it. An end without a block
ends a conditional. -/
def marker? (state : DirectiveState) (line : Text) : Option (Directive × DirectiveState) :=
  let word := line.takeWhile fun c => !Unicode.isBlank c
  if word = Embedded.python.marker then
    some (.embeddedStart .python, { state with embedded := .python :: state.embedded })
  else if word = Embedded.ppl.marker then
    some (.embeddedStart .ppl, { state with embedded := .ppl :: state.embedded })
  else if word = endMarker then
    match state.embedded with
    | language :: outer => some (.embeddedEnd language, { state with embedded := outer })
    | [] => some (.consumed, state.skip .finish)
  else none

end DirectiveState

namespace Directive

def libraryExtension : Text := "pplib".toList

def enclosed? (first last : Char) : Text → Option Text
  | [] => Option.none
  | c :: rest =>
    if c = first && rest.getLast? = some last then some rest.dropLast else Option.none

/-- The files that an inclusion in a source of a directory may mean, the preferred one first: a
library between angle brackets, or a file between quotes, beside the source or where it is named.
-/
def candidates (config : Config) (directory : Option Text) (rest : Text) : List Text :=
  match enclosed? '<' '>' rest with
  | some name =>
    let path := Path.join config.libraryPath (Text.trim name)
    [if (Path.extension? path).isNone then Path.setExtension path libraryExtension else path]
  | Option.none =>
    match enclosed? '"' '"' rest with
    | some name =>
      (directory.map fun directory => Path.join directory (Text.trim name)).toList ++
        [Text.trim name]
    | Option.none => []

/-- The file that an inclusion names: the first that is there, and the last if none is. -/
def includedPath? (env : Environment) (files : FileSystem) (rest : Text) : Option Text :=
  let paths := candidates env.config env.directory? rest
  (paths.find? files.has).or paths.getLast?

def definitionPattern : Regex :=
  all [front, .capture 1 name,
    opt (all [char '(', .capture 2 (star (.one fun c =>
      Unicode.isWordChar c || Unicode.isBlank c || c == ',')), char ')']),
    opt (.seq blanks1 (.capture 3 (star notNewline))), back]

def listedNames (t : Text) : List Text :=
  ((Text.splitOn ',' t).map Text.trim).filter fun name => !name.isEmpty

/-- Define an identity for the whole program. The text it stands for is resolved, and folded where
it is a constant expression. -/
def define (env : Environment) (rest : Text) : Environment :=
  match definitionPattern.find? rest with
  | Option.none => env.report .error ("malformed #define ".toList ++ rest)
  | some found =>
    let (resolved, env) := env.resolveAliases (Text.trim (found.group 3))
    let (real, env) := env.foldWhole resolved
    env.declare
      { identifier := found.group 1,
        real := real,
        kind := .callable,
        parameters := listedNames (found.group 2),
        scope := .level 0 }

def conditionPattern : Regex :=
  all [front, .capture 1 name, blanks,
    .capture 2 (anyLit ["==", "!=", "<>", ">=", "<=", ">", "<", "="]), blanks,
    .capture 3 (plusLazy notNewline), back]

def trimChar (c : Char) (t : Text) : Text :=
  (((t.dropWhile (· == c)).reverse).dropWhile (· == c)).reverse

/-- Whether a condition holds. Values are compared as numbers where both are numbers. A name that is
not defined makes the condition false, and so does a condition that cannot be read. -/
def condition (env : Environment) (rest : Text) : Bool × Environment :=
  match conditionPattern.find? rest with
  | Option.none => (false, env.report .error ("malformed #if ".toList ++ rest))
  | some found =>
    let holds := do
      let identity ← env.aliases.get? (found.group 1)
      let op ← Comparison.ofSign? (found.group 2)
      let left := Text.trim identity.real
      let right := trimChar '"' (Text.trim (found.group 3))
      match Numeral.read? left, Numeral.read? right with
      | some a, some b => pure (op.holdsFloat a b)
      | _, _ => pure (op.holdsText left right)
    (holds.getD false, env)

def setOptions (env : Environment) (rest : Text) : Environment :=
  let options := ((rest.dropWhile (· == '(')).reverse.dropWhile (· == ')')).reverse
  (listedNames options).foldl (fun env option =>
    if option = "verbose aliases".toList then
      { env with aliases := { env.aliases with verbose := true } }
    else if option = "quiet aliases".toList then
      { env with aliases := { env.aliases with verbose := false } }
    else env) env

def linePattern : Regex :=
  all [front, char '#', .capture 1 (.seq (.one fun c => 'a' ≤ c && c ≤ 'z') (star wordChar)), edge,
    blanks, .capture 2 (star notNewline), back]

/-- The word of a directive and what follows it, where a line without blanks around it is one. -/
def ofLine? (line : Text) : Option (DirectiveWord × Text) :=
  (linePattern.find? line).map fun found =>
    (DirectiveWord.ofText (found.group 1), Text.trim (found.group 2))

def mentioned (config : Config) (path source : Text) : List Text :=
  (Text.lines source).flatMap fun line =>
    match ofLine? (Text.trim line) with
    | some (.inclusion, rest) => candidates config (Path.parent? path) rest
    | _ => []

def perform (files : FileSystem) (line rest : Text) (state : DirectiveState) (env : Environment) :
    DirectiveWord → Directive × DirectiveState × Environment
  | .inclusion =>
    match includedPath? env files rest with
    | some path => (.inclusion path, state, env)
    | Option.none =>
      (.consumed, state, env.report .error ("malformed #include ".toList ++ rest))
  | .definition => (.consumed, state, define env rest)
  | .removal => (.consumed, state, { env with aliases := env.aliases.remove rest })
  | .pragma =>
    if Text.startsWith rest "mode".toList then (.pass line, state, env)
    else (.consumed, state, setOptions env rest)
  | .ifDefined =>
    (.consumed, { state with isSkipping := !env.aliases.hasName rest }, env)
  | .ifUndefined =>
    (.consumed, { state with isSkipping := env.aliases.hasName rest }, env)
  | .ifCompares =>
    let (holds, env) := condition env rest
    (.consumed, { state with isSkipping := !holds }, env)
  | .otherwise => (.consumed, { state with isSkipping := true }, env)
  | .finish | .other => (.consumed, state, env)

/-- Read a line as a directive and carry it out. In an embedded block only the markers of blocks are
directives. -/
def read (files : FileSystem) (line : Text) (state : DirectiveState) (env : Environment) :
    Directive × DirectiveState × Environment :=
  let line := Text.trim line
  if line.head? != some '#' then (.none, state, env)
  else match state.marker? line with
    | some (directive, state) => (directive, state, env)
    | Option.none =>
      if !state.embedded.isEmpty then (.none, state, env)
      else match ofLine? line with
        | Option.none => (.none, state, env)
        | some (word, rest) =>
          if state.isSkipping then (.consumed, state.skip word, env)
          else perform files line rest state env word

end Directive

end PrimePlus
