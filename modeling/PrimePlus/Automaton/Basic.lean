import PrimePlus.Shape.Footprint

/-!
The automaton of a shape, made from its end to its start. Only a repetition leads back.
-/

namespace PrimePlus

inductive State where
  | read (members : CharSet) (next : Nat)
  | check (condition : Look) (next : Nat)
  | fork (ways : List Nat)
  | enter (next : Nat)
  /-- Marks the end of the group that was entered last. -/
  | leave (index : Nat) (next : Nat)
  | accept
  deriving Repr

abbrev States := Array State

/-- A way to make states: given the state to come after, the state to start with. -/
abbrev Making := Nat → States → Nat × States

namespace Making

def push (state : State) (states : States) : Nat × States :=
  (states.size, states.push state)

def ways (greedy : Bool) (body next : Nat) : State :=
  .fork (if greedy then [body, next] else [next, body])

def literal (t : Text) : Making := fun next states =>
  t.foldr (fun c (made : Nat × States) => push (.read (.point c.toNat) made.1) made.2)
    (next, states)

def times (body : Making) : Nat → Making
  | 0, next, states => (next, states)
  | n + 1, next, states =>
    let made := body next states
    times body n made.1 made.2

/-- A part that may be matched a number of times more, each time with a fork of its own to the end.
-/
def optional (greedy : Bool) (body : Making) (stop : Nat) : Nat → Making
  | 0, next, states => (next, states)
  | n + 1, next, states =>
    let made := body next states
    let forked := push (ways greedy made.1 stop) made.2
    optional greedy body stop n forked.1 forked.2

/-- A part one or more times: the state of its first round and the fork after each round. -/
def rounds (greedy : Bool) (body : Making) (next : Nat) (states : States) :
    Nat × Nat × States :=
  let back := states.size
  let made := body back (states.push .accept)
  (made.1, back, made.2.setIfInBounds back (ways greedy made.1 next))

/-- A repetition of a part, which may always read something or not. What may read nothing is not
skipped by the fork after its rounds, but by one of its own. -/
def loop (greedy reads : Bool) (body : Making) (least : Nat) : Option Nat → Making
  | none, next, states =>
    let (first, back, states) := rounds greedy body next states
    if least = 0 && reads then (back, states)
    else if least = 0 then push (ways greedy first next) states
    else times body (least - 1) first states
  | some most, next, states =>
    let tail := optional greedy body next (most - least) next states
    times body least tail.1 tail.2

end Making

def Shape.making : Shape → Making
  | .empty => fun next states => (next, states)
  | .literal t => Making.literal t
  | .one _ members => fun next states => Making.push (.read members next) states
  | .look condition => fun next states => Making.push (.check condition next) states
  | .loop least most greedy body =>
    Making.loop greedy (body.leastBytes?.any fun n => 0 < n) body.making least most
  | .group index body => fun next states =>
    let stop := Making.push (.leave index next) states
    let made := body.making stop.1 stop.2
    Making.push (.enter made.1) made.2
  | .seq first second => fun next states =>
    let made := second.making next states
    first.making made.1 made.2
  | .alt first second => fun next states =>
    let later := second.making next states
    let made := first.making next later.2
    Making.push (.fork [made.1, later.1]) made.2

/-- An automaton: its states, the state to start with, and a number of steps that is enough to
follow all ways that read nothing. -/
structure Automaton where
  states : States
  start : Nat
  reach : Nat

def State.degree : State → Nat
  | .fork ways => ways.length
  | .accept => 0
  | _ => 1

def Shape.automaton (shape : Shape) : Automaton :=
  let made := shape.making 0 #[.accept]
  { states := made.2,
    start := made.1,
    reach := made.2.foldl (fun n state => n + state.degree) 1 }

end PrimePlus
