import PrimePlus.Automaton.Search

/-!
What finds matches in a text: an expression of this library, or a pattern of a program.
-/

namespace PrimePlus

inductive Finder where
  | regex (r : Regex)
  | automaton (a : Automaton)

namespace Finder

def findFrom (index : Nat) (before after : Text) : Finder → Option Match
  | .regex r => r.findFrom index before after
  | .automaton a => a.findFrom index before after

def isMatch (finder : Finder) (t : Text) : Bool :=
  (finder.findFrom 0 [] t).isSome

def pieces (t : Text) : Finder → List Regex.Piece
  | .regex r => r.pieces t
  | .automaton a => a.pieces t

def findAll (finder : Finder) (t : Text) : List Match :=
  Regex.hits (finder.pieces t)

def replaceAll (finder : Finder) (t : Text) (image : Match → Text) : Text :=
  if finder.isMatch t then Regex.assemble image (finder.pieces t) else t

end Finder

end PrimePlus
