import PrimePlus.Alias.Table
import PrimePlus.Lexical.Bracket
import PrimePlus.Lexical.Literal
import PrimePlus.Settle

/-!
Substitution of identities outside string literals.
-/

namespace PrimePlus.Alias

open Unicode (isNameChar)

/-- The expression for a parameter. At a side where it has an underscore, or a character that is not
one of a name, it may stand inside a longer word. -/
def parameterRegex (name : Text) : Regex :=
  let bounded := fun (c : Option Char) => c.any fun c => c != '_' && isNameChar c
  .seq (if bounded name.head? then Regex.edge else .empty)
    (.seq (Regex.text name) (if bounded name.getLast? then Regex.edge else .empty))

/-- The parameters with their arguments, the longest name first and names of one length in the order
of declaration. -/
def orderedParameters (parameters : List (Text × Text)) : List (Text × Text) :=
  parameters.foldl (fun ordered entry =>
    insertBySize (fun entry : Text × Text => Text.byteLength entry.1) entry ordered) []

/-- A text with all parameters replaced by their arguments at once. Of several parameters with one
name the last gives the argument. -/
def substitute (parameters : List (Text × Text)) (t : Text) : Text :=
  let ordered := orderedParameters parameters
  (Regex.any (ordered.map fun entry => parameterRegex entry.1)).replaceAll t fun found =>
    match ordered.reverse.find? fun entry => entry.1 == found.text with
    | some entry => entry.2
    | none => found.text

/-- What a call of an identity is replaced by. The number of arguments has to be right. -/
def applyCall (identity : Identity) (location : Location) (arguments : List Text) :
    Reported Text :=
  if arguments.length = identity.parameters.length then
    (substitute (identity.parameters.zip arguments) identity.real, [])
  else
    (identity.real, [⟨.error, location,
      "macro '".toList ++ identity.identifier ++ "' expects ".toList ++
        Text.ofNat identity.parameters.length ++ " argument(s), got ".toList ++
        Text.ofNat arguments.length⟩])

/-- A call found in a text: the text before its name, what its parentheses hold, and the place after
them. -/
structure Call where
  lead : Text
  inside : Text
  after : Cursor

/-- The first call at or after a place. The last byte before the end of a match is taken for the
opening parenthesis. -/
def findCall? (finder : Finder) (cursor : Cursor) : Option Call :=
  (finder.findFrom cursor.index cursor.before cursor.after).bind fun found =>
    match found.stop.before with
    | [] => none
    | last :: _ =>
      if 0x7F < last.toNat then none
      else
        let opened := last :: found.stop.after
        (Lexical.closingOffset? 0 opened).map fun n =>
          { lead := cursor.spanTo found.start,
            inside := (opened.take n).drop 1,
            after := ⟨found.stop.index + n, (found.stop.after.take n).reverse ++ found.stop.before,
              found.stop.after.drop n⟩ }

/-- Whether there is a match at or after a place, but no character of one byte before its end: the
text cannot be cut there. -/
def breaksOff (finder : Finder) (cursor : Cursor) : Bool :=
  (finder.findFrom cursor.index cursor.before cursor.after).any fun found =>
    found.stop.before.head?.all fun last => 0x7F < last.toNat

/-- The text from a place on with every call of an identity replaced. Calls inside the arguments of
a call are replaced first. The first argument bounds the number of steps; the number of characters
ahead is always enough. -/
def expandFrom (identity : Identity) (finder : Finder) (location : Location) :
    Nat → Cursor → Reported Text
  | 0, cursor => (cursor.after, [])
  | fuel + 1, cursor =>
    match findCall? finder cursor with
    | none =>
      (cursor.after, if breaksOff finder cursor then [Error.aborted.diagnostic location] else [])
    | some call =>
      let arguments := (Lexical.splitArguments call.inside).map fun argument =>
        expandFrom identity finder location fuel (.start (Text.trim argument))
      let image := applyCall identity location (arguments.map Prod.fst)
      let rest := expandFrom identity finder location fuel call.after
      (call.lead ++ image.1 ++ rest.1,
        arguments.flatMap Prod.snd ++ identity.deprecation location ++ image.2 ++ rest.2)

def expandCalls (identity : Identity) (finder : Finder) (location : Location) (t : Text) :
    Reported Text :=
  expandFrom identity finder location (t.length + 1) (.start t)

def Entry.resolve (location : Location) (entry : Entry) (t : Text) : Reported Text :=
  if !entry.finder.isMatch t then (t, [])
  else if entry.identity.isCall then expandCalls entry.identity entry.finder location t
  else (entry.finder.replaceAll t fun _ => entry.identity.real,
    entry.identity.deprecation location)

namespace Table

def resolveOnce (table : Table) (location : Location) (t : Text) : Reported Text :=
  table.entries.foldl (fun done entry =>
    let next := entry.resolve location done.1
    (next.1, done.2 ++ next.2)) (t, [])

def resolve (table : Table) (location : Location) (t : Text) : Reported Text :=
  if Text.isBlankText t || table.entries.isEmpty then (t, [])
  else
    let (hidden, store) := Lexical.protect [] t
    let settled := settle (table.resolveOnce location) table.maxPasses hidden
    let looping := if settled.isFixed then [] else
      [(Error.substitutionLoop t table.maxPasses).diagnostic location]
    (Lexical.restore store settled.text, settled.diagnostics ++ looping)

end Table

end PrimePlus.Alias
