import PrimePlus.Automaton.Basic
import PrimePlus.Regex.Search

/-!
Finding matches with an automaton. All ways through it are followed at once, by preference.
-/

namespace PrimePlus

/-- A way through an automaton: the state reached, where the match started, where the groups started
that are open, and the groups captured so far. -/
structure Thread where
  state : Nat
  start : Cursor
  opened : List Cursor := []
  groups : Groups := []

/-- The ways followed at a place, the least preferred first, and for each state the number of the
place where it was last reached. Places are numbered from one. -/
structure Front where
  threads : List Thread
  seen : Array Nat

namespace Automaton

def isSeen (front : Front) (place state : Nat) : Bool :=
  front.seen.getD state 0 == place

/-- The ways at a place with those added that lead on from given ones without reading. The first
argument bounds the number of steps. -/
def follow (automaton : Automaton) (cursor : Cursor) : Nat → List Thread → Front → Front
  | 0, _, front => front
  | _, [], front => front
  | fuel + 1, thread :: pending, front =>
    if isSeen front (cursor.index + 1) thread.state then follow automaton cursor fuel pending front
    else
      let front := { front with
        seen := front.seen.setIfInBounds thread.state (cursor.index + 1) }
      match automaton.states.getD thread.state (.fork []) with
      | .read _ _ | .accept =>
        follow automaton cursor fuel pending { front with threads := thread :: front.threads }
      | .check condition next =>
        if condition.holds cursor then
          follow automaton cursor fuel ({ thread with state := next } :: pending) front
        else follow automaton cursor fuel pending front
      | .fork ways =>
        follow automaton cursor fuel
          (ways.map (fun way => { thread with state := way }) ++ pending) front
      | .enter next =>
        follow automaton cursor fuel
          ({ thread with state := next, opened := cursor :: thread.opened } :: pending) front
      | .leave index next =>
        let entered := thread.opened.headD cursor
        follow automaton cursor fuel
          ({ thread with
            state := next, opened := thread.opened.tail,
            groups := ⟨index, entered, cursor⟩ :: thread.groups } :: pending) front

/-- The ways before the first one that is accepted, the most preferred first, and that one. -/
def untilAccepted (automaton : Automaton) : List Thread → List Thread × Option Thread
  | [] => ([], none)
  | thread :: rest =>
    match automaton.states.getD thread.state (.fork []) with
    | .accept => ([], some thread)
    | _ =>
      let (kept, accepted) := automaton.untilAccepted rest
      (thread :: kept, accepted)

/-- The ways after a character was read. The cursor is the one behind it. -/
def advance (automaton : Automaton) (cursor : Cursor) (c : Char) (threads : List Thread)
    (seen : Array Nat) : Front :=
  threads.foldl (fun front thread =>
    match automaton.states.getD thread.state (.fork []) with
    | .read members next =>
      if members.contains c then
        automaton.follow cursor automaton.reach [{ thread with state := next }] front
      else front
    | _ => front) ⟨[], seen⟩

/-- The match found from a place on, given the ways that lead there and the match found so far. -/
def searchFrom (automaton : Automaton) (front : Front) (best : Option Match) (index : Nat)
    (before : Text) : Text → Option Match
  | [] => (step front best ⟨index, before, []⟩).2.1
  | c :: cs =>
    let (threads, best, seen) := step front best ⟨index, before, c :: cs⟩
    if threads.isEmpty && best.isSome then best
    else
      let front := automaton.advance ⟨index + 1, c :: before, cs⟩ c threads seen
      searchFrom automaton front best (index + 1) (c :: before) cs
where
  step (front : Front) (best : Option Match) (cursor : Cursor) :
      List Thread × Option Match × Array Nat :=
    let front := if best.isSome then front
      else automaton.follow cursor automaton.reach [⟨automaton.start, cursor, [], []⟩] front
    let (threads, accepted) := automaton.untilAccepted front.threads.reverse
    (threads, (accepted.map fun thread => ⟨thread.start, cursor, thread.groups⟩).or best,
      front.seen)

def findFrom (automaton : Automaton) (index : Nat) (before after : Text) : Option Match :=
  automaton.searchFrom ⟨[], Array.replicate automaton.states.size 0⟩ none index before after

/-- The pieces from a place on. `fresh` says that no match ended here. The first argument bounds the
number of searches. -/
def piecesFrom (automaton : Automaton) : Nat → Bool → Cursor → List Regex.Piece
  | 0, _, cursor => cursor.after.map .gap
  | fuel + 1, fresh, cursor =>
    match automaton.findFrom cursor.index cursor.before cursor.after with
    | none => cursor.after.map .gap
    | some found =>
      let lead := (cursor.spanTo found.start).map Regex.Piece.gap
      if 0 < found.length then lead ++ .hit found :: piecesFrom automaton fuel false found.stop
      else
        lead ++ (if fresh || cursor.index < found.start.index then [.hit found] else []) ++
          match found.stop.after with
          | [] => []
          | c :: cs => .gap c :: piecesFrom automaton fuel true (found.stop.step c cs)

def pieces (automaton : Automaton) (t : Text) : List Regex.Piece :=
  automaton.piecesFrom (t.length + 1) true (.start t)

end Automaton

end PrimePlus
