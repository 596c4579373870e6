import PrimePlus.Text.Basic

/-!
The words that open and close blocks, and the nesting that they give a line or a program.
-/

namespace PrimePlus.Lexical

open Unicode (isBlank isNameChar)

inductive BlockWord where
  | opens
  | closes
  | divides
  deriving Repr, DecidableEq

def BlockWord.ofWord? (word : Text) : Option BlockWord :=
  if ["BEGIN", "IF", "FOR", "CASE", "REPEAT", "WHILE", "IFERR", "switch"].any
      fun keyword => keyword.toList == word
  then some .opens
  else if ["END", "UNTIL"].any fun keyword => keyword.toList == word then some .closes
  else if word = "ELSE".toList then some .divides
  else none

/-- A block word in a text: what it does, the word, and the numbers of characters before its start
and before its end. -/
structure BlockToken where
  effect : BlockWord
  word : Text
  start : Nat
  stop : Nat
  deriving Repr, DecidableEq

/-- A word that is being read: where it starts, the character before it, and its characters with the
last one first. -/
structure OpenWord where
  start : Nat
  prev : Option Char
  chars : Text

def OpenWord.token? (word : OpenWord) : Option BlockToken :=
  if word.prev = some '#' then none
  else
    let chars := word.chars.reverse
    (BlockWord.ofWord? chars).map fun effect =>
      ⟨effect, chars, word.start, word.start + chars.length⟩

def blockTokensFrom (index : Nat) (prev : Option Char) : Option OpenWord → Text → List BlockToken
  | word, [] => (word.bind OpenWord.token?).toList
  | word, c :: cs =>
    if isNameChar c then
      let word := match word with
        | some word => { word with chars := c :: word.chars }
        | none => ⟨index, prev, [c]⟩
      blockTokensFrom (index + 1) (some c) (some word) cs
    else (word.bind OpenWord.token?).toList ++ blockTokensFrom (index + 1) (some c) none cs

def blockTokens (t : Text) : List BlockToken :=
  blockTokensFrom 0 none none t

/-- The block structure of a line: how many blocks it opens and closes, and the block word that it
starts with. -/
structure Nesting where
  opens : Nat
  closes : Nat
  leading : Option BlockWord
  deriving Repr, DecidableEq

namespace Nesting

def ofLine (line : Text) : Nesting :=
  let tokens := blockTokens line
  let indent := (line.takeWhile isBlank).length
  { opens := tokens.countP fun token => token.effect == .opens,
    closes := tokens.countP fun token => token.effect == .closes,
    leading := (tokens.head?.filter fun token => token.start == indent).map BlockToken.effect }

def indentLevel (nesting : Nesting) (depth : Nat) : Nat :=
  match nesting.leading with
  | some .closes | some .divides => depth - 1
  | _ => depth

def depthAfter (nesting : Nesting) (depth : Nat) : Nat :=
  depth + nesting.opens - nesting.closes

end Nesting

/-- The outermost blocks among the rest of the block words. The state is the start of the block that
is open and the number of blocks open inside it. -/
def outerBlocksFrom : Option (Nat × Nat) → List BlockToken → List (Nat × Nat)
  | _, [] => []
  | none, token :: rest =>
    if token.effect = .opens && token.word == "BEGIN".toList then
      outerBlocksFrom (some (token.start, 0)) rest
    else outerBlocksFrom none rest
  | some (start, inner), token :: rest =>
    match token.effect, inner with
    | .opens, _ => outerBlocksFrom (some (start, inner + 1)) rest
    | .closes, 0 => (start, token.stop) :: outerBlocksFrom none rest
    | .closes, inner + 1 => outerBlocksFrom (some (start, inner)) rest
    | .divides, _ => outerBlocksFrom (some (start, inner)) rest

/-- The outermost blocks of a text that start with `BEGIN` and are closed, as numbers of characters
before their start and before their end. -/
def outerBlocks (t : Text) : List (Nat × Nat) :=
  outerBlocksFrom none (blockTokens t)

end PrimePlus.Lexical
