import PrimePlus.Text.Basic

/-!
Diagnostics: what is reported about a program while it is compiled, and where it was found.
-/

namespace PrimePlus

/-- A place in a source: the file and the number of the line, counted from one. Text that was not
read from a file has no path. -/
structure Location where
  path : Text := []
  line : Nat := 0
  deriving Repr, DecidableEq, Inhabited

def Location.text (location : Location) : Text :=
  (if location.path.isEmpty then [] else location.path ++ [':']) ++ Text.ofNat location.line

inductive Severity where
  /-- A name is used that should no longer be; it is substituted all the same. -/
  | deprecated
  /-- A declaration is refused and an earlier one stays in force. -/
  | warning
  /-- The run goes on but counts as failed. -/
  | error
  | critical
  /-- The run breaks off without a result: a text cannot be cut or a number not be written. -/
  | abort
  deriving Repr, DecidableEq

namespace Severity

def isFailure : Severity → Bool
  | .error | .critical | .abort => true
  | .deprecated | .warning => false

def text : Severity → Text
  | .deprecated => "deprecated".toList
  | .warning => "warning".toList
  | .error => "error".toList
  | .critical => "critical error".toList
  | .abort => "abort".toList

end Severity

structure Diagnostic where
  severity : Severity
  location : Location
  message : Text
  deriving Repr, DecidableEq

def Diagnostic.text (diagnostic : Diagnostic) : Text :=
  diagnostic.location.text ++ [' '] ++ diagnostic.severity.text ++ ": ".toList ++
    diagnostic.message

def hasFailure (diagnostics : List Diagnostic) : Bool :=
  diagnostics.any fun diagnostic => diagnostic.severity.isFailure

def hasAbort (diagnostics : List Diagnostic) : Bool :=
  diagnostics.any fun diagnostic => diagnostic.severity == .abort

def countOf (severity : Severity) (diagnostics : List Diagnostic) : Nat :=
  diagnostics.countP fun diagnostic => diagnostic.severity == severity

/-- Where a declaration stands: its place in the source and the number of open blocks around it. -/
structure Site where
  location : Location := {}
  depth : Nat := 0
  deriving Repr, DecidableEq, Inhabited

abbrev Reported (α : Type) := α × List Diagnostic

end PrimePlus
