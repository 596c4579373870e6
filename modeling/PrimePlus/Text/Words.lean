import PrimePlus.Text.Basic

/-!
The words of a text: its longest runs of characters of a name.
-/

namespace PrimePlus.Text

open Unicode (isNameChar)

/-- The words of a text behind characters of a word, which are given with the last one first. -/
def wordsFrom : Text → Text → List Text
  | word, [] => if word.isEmpty then [] else [word.reverse]
  | word, c :: cs =>
    if isNameChar c then wordsFrom (c :: word) cs
    else if word.isEmpty then wordsFrom [] cs
    else word.reverse :: wordsFrom [] cs

def words (t : Text) : List Text :=
  wordsFrom [] t

/-- A text with every word replaced, behind characters of a word, which are given with the last one
first. -/
def mapWordsFrom (image : Text → Text) : Text → Text → Text
  | word, [] => if word.isEmpty then [] else image word.reverse
  | word, c :: cs =>
    if isNameChar c then mapWordsFrom image (c :: word) cs
    else (if word.isEmpty then [] else image word.reverse) ++ c :: mapWordsFrom image [] cs

def mapWords (image : Text → Text) (t : Text) : Text :=
  mapWordsFrom image [] t

def renamed (renamings : List (Text × Text)) (word : Text) : Text :=
  ((renamings.find? fun entry => entry.1 == word).map Prod.snd).getD word

end PrimePlus.Text
