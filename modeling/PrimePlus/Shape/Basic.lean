import PrimePlus.CharSet.Basic
import PrimePlus.Regex.Build

/-!
The shape of a pattern. What all alternatives begin with stands before them, which is part of its
meaning: `a*a|a*b` is `a*` followed by `a` or `b`, and so it matches the whole of `aab`.
-/

namespace PrimePlus

inductive WordLook where
  | edge
  | noEdge
  | start
  | stop
  | startHalf
  | stopHalf
  deriving Repr, DecidableEq

def WordLook.holds (word : Char → Bool) (cursor : Cursor) : WordLook → Bool
  | .edge => cursor.atEdge word
  | .noEdge => !cursor.atEdge word
  | .start => !cursor.lastIs word && cursor.nextIs word
  | .stop => cursor.lastIs word && !cursor.nextIs word
  | .startHalf => !cursor.lastIs word
  | .stopHalf => !cursor.nextIs word

inductive Look where
  | textStart
  | textEnd
  | lineStart
  | lineEnd
  /-- The start of a line, lines ending in a carriage return, a line feed or both. -/
  | lineStartCrlf
  /-- The end of a line, lines ending in a carriage return, a line feed or both. -/
  | lineEndCrlf
  /-- A condition on words, of Unicode or of ASCII characters. -/
  | word (unicode : Bool) (look : WordLook)
  deriving Repr, DecidableEq

def isAsciiWord (c : Char) : Bool :=
  c.isAlphanum || c == '_'

def Look.holds (cursor : Cursor) : Look → Bool
  | .textStart => cursor.index == 0
  | .textEnd => cursor.after.isEmpty
  | .lineStart => cursor.index == 0 || cursor.lastIs (· == '\n')
  | .lineEnd => cursor.after.isEmpty || cursor.nextIs (· == '\n')
  | .lineStartCrlf =>
    cursor.index == 0 || cursor.lastIs (· == '\n') ||
      (cursor.lastIs (· == '\r') && !cursor.nextIs (· == '\n'))
  | .lineEndCrlf =>
    cursor.after.isEmpty || cursor.nextIs (· == '\r') ||
      (cursor.nextIs (· == '\n') && !cursor.lastIs (· == '\r'))
  | .word unicode look => look.holds (if unicode then Unicode.isWordChar else isAsciiWord) cursor

inductive Shape where
  | empty
  | literal (t : Text)
  /-- Matches one character of a class; a narrow class was written for ASCII characters. -/
  | one (narrow : Bool) (members : CharSet)
  | look (condition : Look)
  /-- Matches a shape repeatedly, at least and at most a number of times. -/
  | loop (least : Nat) (most : Option Nat) (greedy : Bool) (body : Shape)
  | group (index : Nat) (body : Shape)
  | seq (first second : Shape)
  | alt (first second : Shape)
  deriving Repr, DecidableEq

namespace Shape

def fail : Shape :=
  .one true .none

def isWidthless : Shape → Bool
  | .empty => true
  | .literal _ => false
  | .one _ _ => false
  | .look _ => true
  | .loop _ most _ body => most.isSome && body.isWidthless
  | .group _ body => body.isWidthless
  | .seq first second => first.isWidthless && second.isWidthless
  | .alt first second => first.isWidthless && second.isWidthless

def ofSet (narrow : Bool) (members : CharSet) : Shape :=
  if members.isEmpty then fail
  else match members.single? with
    | some n => .literal [Char.ofNat n]
    | none => .one narrow members

/-- A shape repeated at least and at most a number of times. What can match the empty text only is
not matched more than once. -/
def repeated (least : Nat) (most : Option Nat) (greedy : Bool) (body : Shape) : Shape :=
  let low := if body.isWidthless then min least 1 else least
  let high := if body.isWidthless then some (min (most.getD 1) 1) else most
  if low = 0 && high = some 0 then .empty
  else if low = 1 && high = some 1 then body
  else .loop low high greedy body

def parts : Shape → List Shape
  | .empty => []
  | .seq first second => first.parts ++ second.parts
  | shape => [shape]

def joinLiterals : List Shape → List Shape
  | [] => []
  | .literal t :: rest =>
    match joinLiterals rest with
    | .literal u :: more => .literal (t ++ u) :: more
    | joined => .literal t :: joined
  | shape :: rest => shape :: joinLiterals rest

def ofParts : List Shape → Shape
  | [] => .empty
  | [last] => last
  | first :: rest => .seq first (ofParts rest)

def sequence (shapes : List Shape) : Shape :=
  ofParts (joinLiterals (shapes.flatMap parts))

def branches : Shape → List Shape
  | .alt first second => first.branches ++ second.branches
  | shape => [shape]

def ofBranches : List Shape → Shape
  | [] => fail
  | [last] => last
  | first :: rest => .alt first (ofBranches rest)

def asPoint? : Shape → Option Nat
  | .literal [c] => some c.toNat
  | _ => none

def asMembers? : Shape → Option CharSet
  | .one _ members => some members
  | _ => none

/-- The class of shapes that are all single characters or all classes. -/
def asOneClass? (shapes : List Shape) : Option CharSet :=
  match shapes.mapM asPoint? with
  | some points => some (.ofRanges (points.map fun n => (n, n)))
  | none => (shapes.mapM asMembers?).map fun sets => sets.foldl CharSet.union .none

def commonLength : List Shape → List Shape → Nat
  | first :: rest, first' :: rest' => if first = first' then commonLength rest rest' + 1 else 0
  | _, _ => 0

def sharedLength : List (List Shape) → Nat
  | [] => 0
  | first :: rest =>
    if (first :: rest).any fun parts => parts.length < 2 then 0
    else rest.foldl (fun n parts => min n (commonLength first parts)) first.length

/-- Any of several shapes, the earlier ones preferred. What they begin with in common is put in
front. The first argument bounds how often that is done. -/
def choiceWithin : Nat → List Shape → Shape
  | 0, shapes => ofBranches (shapes.flatMap branches)
  | fuel + 1, shapes =>
    let options := shapes.flatMap branches
    if options.length < 2 then ofBranches options
    else match asOneClass? options with
      | some members => ofSet false members
      | none =>
        let shared := sharedLength (options.map parts)
        if shared = 0 then ofBranches options
        else
          let tails := options.map fun option => sequence (option.parts.drop shared)
          sequence ((options.head?.getD .empty).parts.take shared ++ [choiceWithin fuel tails])

def choice (shapes : List Shape) : Shape :=
  choiceWithin (shapes.flatMap parts).length shapes

end Shape

end PrimePlus
