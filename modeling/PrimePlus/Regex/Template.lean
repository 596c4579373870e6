import PrimePlus.Finder
import PrimePlus.Numeral.Power

/-!
Replacement templates: `$1` and `$name`, `${1}` and `${name}`, and `$$` for a dollar sign.
-/

namespace PrimePlus

structure Matcher where
  finder : Finder
  names : List (Text × Nat) := []

inductive TemplatePart where
  | char (c : Char)
  | group (index : Nat)
  | named (name : Text)
  deriving Repr, DecidableEq

namespace TemplatePart

def isReferenceChar (c : Char) : Bool :=
  c.isAlphanum || c == '_'

/-- A reference by number where the name is one that fits a machine word, by name otherwise. A plus
sign may precede the digits. -/
def ofName (name : Text) : TemplatePart :=
  let digits := match name with
    | '+' :: rest => rest
    | _ => name
  match Text.toNat? digits with
  | some n => if Numeral.fitsWord n then .group n else .named name
  | none => .named name

/-- The part that a dollar sign starts, given what follows it, and how much of that belongs to it.
-/
def ofDollar? : Text → Option (TemplatePart × Nat)
  | '$' :: _ => some (.char '$', 1)
  | '{' :: rest =>
    if rest.contains '}' then
      let name := rest.takeWhile (· != '}')
      some (ofName name, name.length + 2)
    else none
  | rest =>
    let name := rest.takeWhile isReferenceChar
    if name.isEmpty then none else some (ofName name, name.length)

/-- The parts of a template, of which `skip` characters belong to the part before. -/
def parseFrom : Nat → Text → List TemplatePart
  | _, [] => []
  | skip + 1, _ :: cs => parseFrom skip cs
  | 0, c :: cs =>
    if c = '$' then
      match ofDollar? cs with
      | some (part, used) => part :: parseFrom used cs
      | none => .char c :: parseFrom 0 cs
    else .char c :: parseFrom 0 cs

def parse (template : Text) : List TemplatePart :=
  parseFrom 0 template

def expand (names : List (Text × Nat)) (found : Match) : TemplatePart → Text
  | .char c => [c]
  | .group index => found.group index
  | .named name =>
    match names.find? fun entry => entry.1 == name with
    | some entry => found.group entry.2
    | none => []

end TemplatePart

namespace Matcher

def replaceAll (matcher : Matcher) (t template : Text) : Text :=
  let parts := TemplatePart.parse template
  matcher.finder.replaceAll t fun found =>
    parts.flatMap (TemplatePart.expand matcher.names found)

end Matcher

end PrimePlus
