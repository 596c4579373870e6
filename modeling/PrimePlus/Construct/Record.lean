import PrimePlus.Construct.Enumeration

/-!
Records: named lists of members, declared between `struct Point` and `end;` by lines such as `x[1];
y[2];`. A line `struct Point origin, auto:cursor;` declares instances: every member becomes an
identity, `origin.x` for `origin[1]`.
-/

namespace PrimePlus.Construct

open Regex

structure Record where
  identifier : Text
  members : List Text := []
  isLocal : Bool := false
  deriving Repr, DecidableEq

/-- The records that are known, the one that is being declared, and how many names of instances were
generated. -/
structure Records where
  known : List Record := []
  opened : Option Record := none
  generated : Nat := 0
  deriving Repr, DecidableEq

namespace Records

def get? (records : Records) (identifier : Text) : Option Record :=
  records.known.find? fun record => record.identifier == identifier

def reset (records : Records) : Records :=
  { records with known := records.known.filter fun record => !record.isLocal, generated := 0 }

def numbered (n : Nat) : Text :=
  's' :: Text.ofNat n

def generate (records : Records) (aliases : Alias.Table) : Text × Records :=
  let n := aliases.nextFree numbered records.generated
  (numbered n, { records with generated := n })

def pairPattern : Regex :=
  all [front, .capture 1 letterName, char ':',
    .capture 2 (.seq dottedName (star (.seq (lit "::") name))), back]

def instanceNames (records : Records) (aliases : Alias.Table) (declared : Text) :
    Text × Text × Records :=
  match pairPattern.find? declared with
  | some found =>
    if found.group 1 = "auto".toList then
      let (real, records) := records.generate aliases
      (real, found.group 2, records)
    else (found.group 1, found.group 2, records)
  | none =>
    if declared.any fun c => c == '.' || c == ':' then
      let (real, records) := records.generate aliases
      (real, declared, records)
    else (declared, declared, records)

def memberPattern : Regex :=
  .seq letter (star dottedChar)

def declareMembers (record : Record) (real identifier : Text) (env : Environment) : Environment :=
  record.members.foldl (fun env member =>
    match memberPattern.find? member with
    | none => env.report .error ("invalid member '".toList ++ member ++ "' in struct '".toList ++
        record.identifier ++ ['\''])
    | some found =>
      env.declare
        { identifier := identifier ++ '.' :: found.text,
          real := memberPattern.replaceAll member fun _ => real,
          kind := .member }) env

/-- The declarations of instances in the spelling of ordinary variables. An instance whose real name
is in use already is not declared again. -/
def instances (record : Record) :
    Records → Environment → List Text → List Text × Records × Environment
  | records, env, [] => ([], records, env)
  | records, env, item :: rest =>
    let item := Text.trim item
    if item.isEmpty then instances record records env rest
    else
      let (real, identifier, records) := records.instanceNames env.aliases item
      let isTaken := env.aliases.hasReal real
      let env := declareMembers record real identifier env
      let (declarations, records, env) := instances record records env rest
      if isTaken then (declarations, records, env)
      else
        let both := if identifier = real then real else real ++ ':' :: identifier
        ((both ++ " := \x7b\x7d".toList) :: declarations, records, env)

def instancesPattern : Regex :=
  all [front, .capture 1 blanks, lit "struct", blanks1, .capture 2 letterName, blanks1,
    .capture 3 (plus (noneOf ";")), char ';', .capture 4 (star notNewline), back]

def instantiate? (records : Records) (env : Environment) (line : Text) :
    Option (Text × Records × Environment) := do
  let found ← instancesPattern.find? line
  let record ← records.get? (found.group 2)
  let (declarations, records, env) :=
    instances record records env (Lexical.splitTop ',' (found.group 3))
  let line :=
    if declarations.isEmpty then Text.trim (found.group 4)
    else found.group 1 ++ "var ".toList ++ Text.join ", ".toList declarations ++
      ';' :: found.group 4
  return (line, records, env)

def startPattern : Regex :=
  all [front, lit "struct", blanks1, .capture 1 letterName, back]

def membersOf (line : Text) : List Text :=
  ((Text.splitOn ';' line).map Text.trim).filter fun member => !member.isEmpty

def continueWith (records : Records) (record : Record) (line : Text) : Records :=
  if endPattern.isMatch line then
    { records with
      known := (records.known.filter fun other => other.identifier != record.identifier) ++
        [record],
      opened := none }
  else { records with opened := some { record with members := record.members ++ membersOf line } }

def lower? (records : Records) (env : Environment) (line : Text) :
    Option (Text × Records × Environment) :=
  let trimmed := Text.trim line
  match records.opened with
  | some record => some ([], records.continueWith record trimmed, env)
  | none =>
    match startPattern.find? trimmed with
    | some found =>
      let identifier := found.group 1
      let env := if (records.get? identifier).isSome then
          env.report .warning ("redefinition of struct '".toList ++ identifier ++ ['\''])
        else env
      some ([], { records with opened := some ⟨identifier, [], env.depth != 0⟩ }, env)
    | none => records.instantiate? env line

end Records

end PrimePlus.Construct
