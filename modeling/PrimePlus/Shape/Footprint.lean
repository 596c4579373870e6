import PrimePlus.Encoding.ByteRange
import PrimePlus.Shape.Basic

/-!
The size of the compiled form of a pattern, which is refused when it takes too many bytes.
-/

namespace PrimePlus.Shape

open Encoding.Utf8 (byteRanges)

def sizeLimit : Nat := 10 * 1024 * 1024

/-- A table of bounded size that remembers the state made for a key. A later key can take the place
of an earlier one. Entries of an earlier round do not count. -/
structure StateTable where
  round : Nat
  entries : Array (Nat × List Nat × Nat)

namespace StateTable

def empty (capacity : Nat) : StateTable :=
  ⟨0, Array.replicate capacity (0, [], 0)⟩

def nextRound (table : StateTable) : StateTable :=
  { table with round := table.round + 1 }

def slot (table : StateTable) (key : List Nat) : Nat :=
  let hash := key.foldl (fun (h : UInt64) n => (h ^^^ n.toUInt64) * 1099511628211)
    14695981039346656037
  (hash % table.entries.size.toUInt64).toNat

def find? (table : StateTable) (key : List Nat) : Option Nat :=
  match table.entries[table.slot key]? with
  | some (round, known, state) =>
    if round = table.round && known == key then some state else none
  | none => none

def insert (table : StateTable) (key : List Nat) (state : Nat) : StateTable :=
  let place := table.slot key
  { table with entries := table.entries.setIfInBounds place (table.round, key, state) }

end StateTable

/-- The count of a compiled form: its states, the bytes that their edges take, and the table of
shared states. -/
structure Meter where
  states : Nat := 0
  edges : Nat := 0
  table : StateTable

namespace Meter

def checked (meter : Meter) : Option Meter :=
  if 32 * meter.states + meter.edges ≤ sizeLimit then some meter else none

def add (meter : Meter) (intervals : Nat) : Option Meter :=
  { meter with states := meter.states + 1, edges := meter.edges + 8 * intervals }.checked

def addAll (meter : Meter) (states : Nat) : Option Meter :=
  { meter with states := meter.states + states }.checked

def fork (meter : Meter) (edges : Nat) : Option Meter :=
  { meter with edges := meter.edges + 4 * edges }.checked

def share (meter : Meter) (edges : List (Nat × Nat × Nat)) : Option (Nat × Meter) :=
  let key := edges.flatMap fun edge => [edge.1, edge.2.1, edge.2.2]
  match meter.table.find? key with
  | some state => some (state, meter)
  | none =>
    (meter.add edges.length).map fun added =>
      (meter.states, { added with table := added.table.insert key meter.states })

end Meter

/-- A state of a class that may still get edges: its edges with the latest first, and the byte
interval of an edge whose goal is not known yet. -/
structure OpenState where
  edges : List (Nat × Nat × Nat)
  pending : Option (Nat × Nat)

def OpenState.close (state : OpenState) (goal : Nat) : List (Nat × Nat × Nat) :=
  match state.pending with
  | some (low, high) => (low, high, goal) :: state.edges
  | none => state.edges

/-- The open states with all but the outermost closed, down to a depth. The innermost stands first.
-/
def closeTo (depth : Nat) : List OpenState → Nat → Meter → Option (List OpenState × Meter)
  | [], _, meter => some ([], meter)
  | state :: outer, goal, meter =>
    if depth < outer.length then
      match meter.share (state.close goal).reverse with
      | some (made, meter) => closeTo depth outer made meter
      | none => none
    else some (⟨state.close goal, none⟩ :: outer, meter)

/-- How many byte intervals of a sequence the open states are already reading, outermost first. -/
def sharedDepth : List (Nat × Nat) → List OpenState → Nat
  | range :: ranges, state :: states =>
    if state.pending = some range then sharedDepth ranges states + 1 else 0
  | _, _ => 0

def extend : List (Nat × Nat) → List OpenState → List OpenState
  | first :: rest, state :: outer =>
    rest.foldl (fun states range => ⟨[], some range⟩ :: states)
      ({ state with pending := some first } :: outer)
  | _, states => states

def countForward (sequences : List (List (Nat × Nat))) (meter : Meter) : Option Meter := do
  let goal := meter.states
  let meter ← { meter with table := meter.table.nextRound }.add 0
  let (states, meter) ← sequences.foldlM (fun (states, meter) ranges => do
    let depth := sharedDepth ranges states.reverse
    let (states, meter) ← closeTo depth states goal meter
    some (extend (ranges.drop depth) states, meter)) ([⟨[], none⟩], meter)
  let (states, meter) ← closeTo 0 states goal meter
  let (_, meter) ← meter.share (states.flatMap fun state => state.edges.reverse)
  some meter

/-- The state before a goal that reads a byte interval, made new unless it is remembered. -/
def stepBack (goal : Nat) (meter : Meter) (range : Nat × Nat) : Option (Nat × Meter) :=
  let key := [goal, range.1, range.2]
  match meter.table.find? key with
  | some state => some (state, meter)
  | none =>
    (meter.add 0).map fun added =>
      (meter.states, { added with table := added.table.insert key meter.states })

def countBackward (sequences : List (List (Nat × Nat))) (meter : Meter) : Option Meter := do
  let goal := meter.states + 1
  let meter ← { meter with table := meter.table.nextRound }.addAll 2
  sequences.foldlM (fun meter ranges => do
    let (_, meter) ← ranges.foldlM (fun (goal, meter) range => stepBack goal meter range)
      (goal, meter)
    meter.fork 1) meter

def countClass (backward : Bool) (members : CharSet) (meter : Meter) : Option Meter :=
  if members.isAscii then (meter.add 0).bind fun meter => meter.add members.ranges.length
  else
    let sequences := members.ranges.flatMap fun range => byteRanges range.1 range.2
    if backward then countBackward sequences meter else countForward sequences meter

/-- Some texts that are alternatives at one place, cut where one of them ends: the ones that go on
before that, by their first byte, come first. A text that ends where nothing goes on and one has
already ended adds nothing. -/
def literalChunks : List (List (UInt8 × List (List UInt8))) → List (UInt8 × List (List UInt8)) →
    List (List UInt8) → List (List (UInt8 × List (List UInt8)))
  | closed, current, [] => (current :: closed).reverse
  | closed, current, [] :: rest =>
    if !closed.isEmpty && (current :: closed).all List.isEmpty then
      literalChunks closed current rest
    else literalChunks (current :: closed) [] rest
  | closed, current, (b :: tail) :: rest =>
    let current := if current.any fun entry => entry.1 == b then
        current.map fun entry => if entry.1 == b then (b, entry.2 ++ [tail]) else entry
      else current ++ [(b, [tail])]
    literalChunks closed current rest

/-- The states and the bytes of edges for texts that are alternatives at one place. The first
argument bounds the length of the texts. -/
def countLiterals : Nat → List (List UInt8) → Nat × Nat
  | 0, _ => (0, 0)
  | fuel + 1, texts =>
    if texts.all List.isEmpty then (0, 0)
    else
      let chunks := literalChunks [] [] texts
      let inner := chunks.flatten.map fun entry => countLiterals fuel entry.2
      let filled := chunks.filter fun chunk => !chunk.isEmpty
      let wide := filled.filter fun chunk => 1 < chunk.length
      (inner.foldl (fun n count => n + count.1) (1 + filled.length),
        inner.foldl (fun n count => n + count.2) (wide.foldl (fun n chunk => n + 8 * chunk.length)
          (4 * (filled.length + (chunks.length - 1)))))

def asLiteral? : Shape → Option Text
  | .literal t => some t
  | _ => none

/-- The least number of bytes that a match reads; nothing where there may be no match. -/
def leastBytes? : Shape → Option Nat
  | .empty => some 0
  | .literal t => some (Text.byteLength t)
  | .one narrow members =>
    members.ranges.head?.map fun range =>
      if narrow then 1 else (Encoding.Utf8.pointBytes range.1).length
  | .look _ => some 0
  | .loop least _ _ body => body.leastBytes?.map (least * ·)
  | .group _ body => body.leastBytes?
  | .seq first second => first.leastBytes?.bind fun n => second.leastBytes?.map (n + ·)
  | .alt first second => first.leastBytes?.bind fun n => second.leastBytes?.map (min n ·)

/-- Counting one part: by itself, which also says whether the part ends in a fork, and as one of the
alternatives of a choice, given how many come before it. -/
structure Counter where
  alone : Meter → Option (Bool × Meter)
  branch : Nat → Meter → Option Meter

def Meter.leave (meter : Meter) (forked : Bool) : Option Meter :=
  if forked then meter.fork 1 else some meter

/-- Counting a part as an alternative. The fork and the end of a choice are made after its second
alternative. -/
def Counter.branchOf (alone : Meter → Option (Bool × Meter)) (place : Nat) (meter : Meter) :
    Option Meter := do
  let (forked, meter) ← alone meter
  let meter ← if place = 1 then meter.addAll 2 else some meter
  (← meter.fork 1).leave forked

def countTimes (count : Meter → Option (Bool × Meter)) :
    Nat → Bool → Meter → Option (Bool × Meter)
  | 0, forked, meter => some (forked, meter)
  | n + 1, forked, meter =>
    match meter.leave forked with
    | none => none
    | some meter =>
      match count meter with
      | none => none
      | some (forked, meter) => countTimes count n forked meter

def countExactly (count : Meter → Option (Bool × Meter)) (n : Nat) (meter : Meter) :
    Option (Bool × Meter) :=
  if n = 0 then (meter.add 0).map fun meter => (false, meter)
  else countTimes count n false meter

/-- A part that may be matched a number of times more; each time has a fork of its own. -/
def countOptional (count : Meter → Option (Bool × Meter)) :
    Nat → Bool → Meter → Option Meter
  | 0, forked, meter => meter.leave forked
  | n + 1, forked, meter =>
    match (meter.add 0).bind fun meter => count meter with
    | none => none
    | some (next, meter) =>
      match (meter.fork 2).bind fun meter => meter.leave forked with
      | none => none
      | some meter => countOptional count n next meter

/-- The states of a repetition of a part that reads at least so many bytes. -/
def countLoop (count : Meter → Option (Bool × Meter)) (reads : Bool) (least : Nat) :
    Option Nat → Meter → Option (Bool × Meter)
  | none, meter => do
    if least = 0 && reads then
      let (forked, meter) ← count (← meter.add 0)
      return (true, ← (← meter.fork 1).leave forked)
    else if least = 0 then
      let (forked, meter) ← count meter
      return (false, ← (← (← meter.addAll 3).fork 4).leave forked)
    else if least = 1 then
      let (forked, meter) ← count meter
      return (true, ← (← (← meter.add 0).fork 1).leave forked)
    else
      let (before, meter) ← countTimes count (least - 1) false meter
      let (forked, meter) ← count meter
      return (true, ← (← (← (← meter.add 0).fork 1).leave before).leave forked)
  | some most, meter => do
    if least = 0 && most = 1 then
      let (forked, meter) ← count (← meter.add 0)
      return (false, ← (← (← meter.add 0).fork 2).leave forked)
    else
      let (forked, meter) ← countExactly count least meter
      if least = most then return (forked, meter)
      else return (false, ← countOptional count (most - least) forked (← meter.add 0))

def counter (backward : Bool) : Shape → Counter
  | .empty => single fun meter => meter.add 0
  | .literal t => single fun meter => meter.addAll (Text.byteLength t)
  | .one _ members => single fun meter => countClass backward members meter
  | .look _ => single fun meter => meter.add 0
  | .loop least most _ body =>
    let inner := body.counter backward
    let reads := body.leastBytes?.any fun n => 0 < n
    both fun meter => countLoop inner.alone reads least most meter
  | .group _ body =>
    let inner := body.counter backward
    if backward then both inner.alone
    else single fun meter => do
      let (forked, meter) ← inner.alone (← meter.add 0)
      (← meter.add 0).leave forked
  | .seq first second =>
    let (early, late) := if backward then (second.counter backward, first.counter backward)
      else (first.counter backward, second.counter backward)
    both fun meter => do
      let (forked, meter) ← early.alone meter
      let (ended, meter) ← late.alone meter
      return (ended, ← meter.leave forked)
  | .alt first second =>
    let head := first.counter backward
    let tail := second.counter backward
    let options := (Shape.alt first second).branches
    { alone := fun meter =>
        match options.mapM asLiteral? with
        | some texts =>
          let bytes := texts.map fun t =>
            if backward then (Encoding.Utf8.encode t).reverse else Encoding.Utf8.encode t
          let (states, edges) := countLiterals (Text.join [] texts).length.succ bytes
          ({ meter with
            states := meter.states + 1 + states, edges := meter.edges + edges }.checked).map
              fun meter => (false, meter)
        | none => do
          let (forked, meter) ← head.alone meter
          let meter ← (← meter.fork 1).leave forked
          return (false, ← tail.branch 1 meter),
      branch := fun place meter => do
        let meter ← Counter.branchOf head.alone place meter
        tail.branch (place + 1) meter }
where
  both (alone : Meter → Option (Bool × Meter)) : Counter :=
    { alone := alone, branch := Counter.branchOf alone }
  single (count : Meter → Option Meter) : Counter :=
    both fun meter => (count meter).map fun meter => (false, meter)

def startsAtFront : Shape → Bool
  | .look condition => condition == .textStart
  | .loop least _ _ body => 0 < least && body.startsAtFront
  | .group _ body => body.startsAtFront
  | .seq first second => first.startsAtFront || (first.isWidthless && second.startsAtFront)
  | .alt first second => first.startsAtFront && second.startsAtFront
  | _ => false

def stopsAtEnd : Shape → Bool
  | .look condition => condition == .textEnd
  | .loop least _ _ body => 0 < least && body.stopsAtEnd
  | .group _ body => body.stopsAtEnd
  | .seq first second => second.stopsAtEnd || (second.isWidthless && first.stopsAtEnd)
  | .alt first second => first.stopsAtEnd && second.stopsAtEnd
  | _ => false

/-- The states of the compiled form for one direction, as long as they are within the limit. -/
def compiledSize? (backward : Bool) (shape : Shape) : Option Nat := do
  let meter : Meter := { table := .empty (if backward then 1000 else 10000) }
  let anchored := if backward then shape.stopsAtEnd else shape.startsAtFront
  let meter ← if anchored then meter.add 0
    else (← (← (← meter.add 0).add 0).add 1).fork 2
  let whole := if backward then shape else .group 0 shape
  let (forked, meter) ← (whole.counter backward).alone meter
  let meter ← (← meter.add 0).leave forked
  return 32 * meter.states + meter.edges

/-- A number of bytes that the compiled form of a shape does not exceed in either direction. -/
def sizeBound : Shape → Nat
  | .empty => 64
  | .literal t => 64 + 320 * t.length
  | .one _ members => members.ranges.foldl (fun n range =>
      let span := range.2 - range.1
      n + 164 * (if span < 64 then 2 else if span < 4096 then 6 else 24)) 128
  | .look _ => 64
  | .loop least most _ body => 256 + (body.sizeBound + 64) * (max (least + 1) (most.getD 0))
  | .group _ body => body.sizeBound + 96
  | .seq first second => first.sizeBound + second.sizeBound + 8
  | .alt first second => first.sizeBound + second.sizeBound + 128

/-- Whether the compiled form of a shape is within the limit in both directions. A rough bound
settles most cases. -/
def isCompilable (shape : Shape) : Bool :=
  shape.sizeBound + 512 ≤ sizeLimit ||
    ((shape.compiledSize? false).isSome && (shape.compiledSize? true).isSome)

end PrimePlus.Shape
