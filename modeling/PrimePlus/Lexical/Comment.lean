import PrimePlus.Text.Basic

/-!
Line comments and the blanks of a line.
-/

namespace PrimePlus.Lexical

open Unicode (isBlank)

/-- Cut a line before the first two slashes outside a string. A quote starts or ends a string unless
a backslash stands right before it. -/
def cutComment (inString : Bool) (prev : Char) : Text → Option (Text × Text)
  | [] => none
  | c :: cs =>
    if !inString && c == '/' && cs.head? == some '/' then some ([], c :: cs)
    else
      let inString := if c == '"' && prev != '\\' then !inString else inString
      (cutComment inString c cs).map fun (code, comment) => (c :: code, comment)

/-- A line cut into its code, without blanks at the end, and its comment. A line without a comment
stays as it is. -/
def splitComment (line : Text) : Text × Option Text :=
  match cutComment false '\x00' line with
  | some (code, comment) => (Text.trimEnd code, some comment)
  | none => (line, none)

/-- Runs of blanks written as one space, which is left out at the front of a line. `fresh` says that
a line has just begun and `pending` that blanks were passed. -/
def collapseFrom (fresh pending : Bool) : Text → Text
  | [] => []
  | c :: cs =>
    if isBlank c && c != '\n' then collapseFrom fresh true cs
    else (if pending && !fresh then [' '] else []) ++ c :: collapseFrom (c == '\n') false cs

/-- Every run of blanks written as one space; blanks at the front and at the end are dropped. Line
feeds are kept. -/
def collapseBlanks (t : Text) : Text :=
  collapseFrom true false t

def expandTabs (width : Nat) (t : Text) : Text :=
  t.flatMap fun c => if c = '\t' then List.replicate width ' ' else [c]

theorem head?_trim_expandTabs (width : Nat) (t : Text) :
    (Text.trim (expandTabs width t)).head? = (Text.trim t).head? := by
  have tab : isBlank '\t' = true := by decide
  have space : isBlank ' ' = true := by decide
  rw [Text.head?_trim, Text.head?_trim, expandTabs]
  induction t with
  | nil => rfl
  | cons c rest ih =>
    rw [List.flatMap_cons, List.find?_append, ih]
    by_cases same : c = '\t'
    · simp [same, tab, space]
    · cases shown : isBlank c <;> simp [same, shown]

end PrimePlus.Lexical
