import PrimePlus.Text.Basic

/-!
The segments of a generated program: code, and lines that have to stay as they are.
-/

namespace PrimePlus.Program

inductive Segment where
  | verbatim (line : Text)
  | code (t : Text)
  deriving Repr, DecidableEq

def consCode (line : Text) : List Segment → List Segment
  | .code t :: rest => .code (line ++ '\n' :: t) :: rest
  | rest => .code (line ++ ['\n']) :: rest

def startsWithWord (line : Text) (word : String) : Bool :=
  Text.startsWith (Text.trimStart line) word.toList

def opensBlock (line : Text) : Bool :=
  startsWithWord line "#PYTHON" || startsWithWord line "#PPL"

/-- The segments of lines, the first of which may stand in an embedded block. -/
def segmentsFrom : Bool → List Text → List Segment
  | _, [] => []
  | embedded, line :: rest =>
    let stays := embedded || opensBlock line
    let next := if embedded && startsWithWord line "#END" then false else stays
    if stays || startsWithWord line "#pragma" then .verbatim line :: segmentsFrom next rest
    else consCode line (segmentsFrom next rest)

def segments (t : Text) : List Segment :=
  segmentsFrom false (Text.lines t)

end PrimePlus.Program
