import PrimePlus.Diagnostic
import PrimePlus.Expression.Error

/-!
The errors of a compilation and their wording.
-/

namespace PrimePlus

inductive FileFault where
  | missing
  | present
  | notDirectory
  | isDirectory
  | nameTooLong
  | nulInName
  | notText
  deriving Repr, DecidableEq

def FileFault.message : FileFault → Text
  | .missing => "No such file or directory (os error 2)".toList
  | .present => "File exists (os error 17)".toList
  | .notDirectory => "Not a directory (os error 20)".toList
  | .isDirectory => "Is a directory (os error 21)".toList
  | .nameTooLong => "File name too long (os error 36)".toList
  | .nulInName => "file name contained an unexpected NUL byte".toList
  | .notText => "stream did not contain valid UTF-8".toList

inductive Error where
  | file (path : Text) (fault : FileFault)
  | includeCycle (path : Text)
  | substitutionLoop (subject : Text) (passes : Nat)
  | invalidPattern (pattern : Text)
  | expression (fault : Expression.Fault)
  /-- The run has broken off. -/
  | aborted
  deriving Repr, DecidableEq

def Error.message : Error → Text
  | .file path fault => "cannot open '".toList ++ path ++ "': ".toList ++ fault.message
  | .includeCycle path => ['\''] ++ path ++ "' includes itself".toList
  | .substitutionLoop subject passes =>
    "substitution of '".toList ++ subject ++ "' did not settle after ".toList ++
      Text.ofNat passes ++ " passes".toList
  | .invalidPattern pattern => "invalid pattern `".toList ++ pattern ++ ['\x60']
  | .expression fault => "calc: ".toList ++ fault.message
  | .aborted => "aborted".toList

def Error.severity : Error → Severity
  | .expression (.places _) | .aborted => .abort
  | _ => .error

def Error.diagnostic (location : Location) (error : Error) : Diagnostic :=
  ⟨error.severity, location, error.message⟩

def Expression.reported (location : Location) (result : Text × List Fault) : Reported Text :=
  (result.1, result.2.map fun fault => (Error.expression fault).diagnostic location)

end PrimePlus
