import PrimePlus.Diagnostic
import PrimePlus.Pattern

/-!
Identities: a name of the source program and the text that replaces it.
-/

namespace PrimePlus.Alias

inductive Kind where
  | unknown
  | callable
  | synonym
  | function
  | argument
  | var
  | enumerator
  | struct
  | member
  | definition
  deriving Repr, DecidableEq

def Kind.text : Kind → Text
  | .unknown => "identifier".toList
  | .callable => "macro".toList
  | .synonym => "alias".toList
  | .function => "function".toList
  | .argument => "argument".toList
  | .var => "variable".toList
  | .enumerator => "enumerator".toList
  | .struct => "structure".toList
  | .member => "member".toList
  | .definition => "def".toList

inductive Scope where
  /-- As long as the block in which it is declared. -/
  | auto
  /-- Until fewer than this many blocks are open. -/
  | level (n : Nat)
  deriving Repr, DecidableEq

structure Identity where
  identifier : Text
  real : Text
  kind : Kind := .unknown
  parameters : List Text := []
  scope : Scope := .auto
  location : Location := {}
  /-- The advice given where a deprecated name is used; nothing for any other name. -/
  deprecated : Option Text := none
  deriving Repr, DecidableEq

namespace Identity

def isCall (identity : Identity) : Bool :=
  !identity.parameters.isEmpty

def size (identity : Identity) : Nat :=
  identity.identifier.length

/-- The least number of open blocks under which the identity lives. -/
def level (identity : Identity) : Nat :=
  match identity.scope with
  | .auto => 0
  | .level n => n

/-- The written form of the expression for an identity whose pattern stands between backticks. With
parameters a match reaches to the opening parenthesis of the call. -/
def written (identity : Identity) (pattern : Text) : Text :=
  if identity.isCall then pattern ++ "\\s*\\(".toList else pattern

/-- What finds the identity when namespaces are in use, if its pattern is a valid one. A match of a
call reaches to its opening parenthesis. -/
def finder? (namespaces : List Text) (identity : Identity) : Option Finder :=
  match Pattern.parse identity.identifier with
  | .name t =>
    let named := Pattern.nameRegexIn namespaces t
    some (.regex (if identity.isCall then .seq named (.seq Regex.blanks (Regex.char '('))
      else named))
  | .verbatim t =>
    (Shape.parse? false (identity.written t)).map fun (shape, _) => .automaton shape.automaton

def deprecation (identity : Identity) (location : Location) : List Diagnostic :=
  match identity.deprecated with
  | none => []
  | some advice =>
    [⟨.deprecated, location,
      ['\''] ++ identity.identifier ++ "' is deprecated".toList ++
        (if advice.isEmpty then [] else ": ".toList ++ advice)⟩]

end Identity

end PrimePlus.Alias
