import PrimePlus.Regex.Template
import PrimePlus.Shape.Reader

/-!
What an alias or a pattern rule matches: a name, or a regular expression between backticks.
-/

namespace PrimePlus

open Unicode (isNameChar)

inductive Pattern where
  | name (t : Text)
  | verbatim (t : Text)
  deriving Repr, DecidableEq

namespace Pattern

def parse (t : Text) : Pattern :=
  let t := Text.trim t
  match t with
  | '\x60' :: inner =>
    if inner.getLast? = some '\x60' then .verbatim inner.dropLast else .name t
  | _ => .name t

def text : Pattern → Text
  | .name t | .verbatim t => t

def isVerbatim : Pattern → Bool
  | .name _ => false
  | .verbatim _ => true

def startsInWord (t : Text) : Bool :=
  t.head?.any isNameChar

def endsInWord (t : Text) : Bool :=
  t.getLast?.any isNameChar

def escape (t : Text) : Text :=
  t.flatMap fun c => if Shape.isMeta c then ['\\', c] else [c]

/-- The written form of an expression with word edges at the sides where a text has characters of a
name. -/
def edgedSource (t source : Text) : Text :=
  (if startsInWord t then "\\b".toList else []) ++ source ++
    (if endsInWord t then "\\b".toList else [])

/-- An expression with word edges at the sides where a text has characters of a name. -/
def edged (t : Text) (body : Regex) : Regex :=
  .seq (if startsInWord t then Regex.edge else .empty)
    (.seq body (if endsInWord t then Regex.edge else .empty))

def source : Pattern → Text
  | .name t => edgedSource t (escape t)
  | .verbatim t => t

def unqualified (namespaces : List Text) (t : Text) : Text :=
  let inside := fun space => (Text.dropLead? t space).bind (Text.dropLead? · "::".toList)
  (namespaces.findSome? inside).getD t

/-- The written form of the expression for a pattern when namespaces are in use: a name may be
qualified by any of them. -/
def sourceIn (namespaces : List Text) : Pattern → Text
  | .name t =>
    if namespaces.isEmpty then source (.name t)
    else
      let base := unqualified namespaces t
      edgedSource base ("(?:(?:".toList ++ Text.join ['|'] (namespaces.map escape) ++
        ")::)?".toList ++ escape base)
  | .verbatim t => t

def literalText (ignoreCase : Bool) (t : Text) : Regex :=
  let accepts := fun (c : Char) =>
    if ignoreCase then (Unicode.caseVariants c).contains else (· == c)
  t.foldr (fun c rest => .seq (.one (accepts c)) rest) .empty

def nameRegex (ignoreCase : Bool) (t : Text) : Regex :=
  edged t (literalText ignoreCase t)

def nameRegexIn (namespaces : List Text) (t : Text) : Regex :=
  if namespaces.isEmpty then nameRegex false t
  else
    let base := unqualified namespaces t
    edged base
      (.seq (Regex.opt (.seq (Regex.any (namespaces.map Regex.text)) (Regex.lit "::")))
        (Regex.text base))

def compile? (ignoreCase : Bool) (t : Text) : Option Matcher :=
  (Shape.parse? ignoreCase t).map fun (shape, names) => ⟨.automaton shape.automaton, names⟩

def matcher? (ignoreCase : Bool) : Pattern → Option Matcher
  | .name t => some ⟨.regex (nameRegex ignoreCase t), []⟩
  | .verbatim t => compile? ignoreCase t

def isPlainName : Text → Bool
  | [] => false
  | c :: cs => Unicode.isAlphabetic c && cs.all isNameChar

end Pattern

end PrimePlus
