import PrimePlus.Proofs.AliasSeams
import PrimePlus.Proofs.NestedBrackets

/-!
Calls in a text: the parenthesis that closes one, the texts it divides the text into, and that their
replacement comes to an end.
-/

namespace PrimePlus

open List

namespace Lexical

def IsFirst (P : Nat → Prop) : Option Nat → Prop
  | none => ∀ n, ¬P n
  | some n => P n ∧ ∀ m, P m → n ≤ m

section First

variable {P Q : Nat → Prop} {found : Option Nat} {k : Nat}

theorem IsFirst.shift (same : ∀ n, P n ↔ ∃ m, Q m ∧ m + k = n) (first : IsFirst Q found) :
    IsFirst P (found.map (· + k)) := by
  cases found with
  | none =>
    intro n hold
    obtain ⟨m, held, -⟩ := (same n).mp hold
    exact first m held
  | some n =>
    refine ⟨(same (n + k)).mpr ⟨n, first.1, rfl⟩, ?_⟩
    intro m hold
    obtain ⟨m, held, rfl⟩ := (same m).mp hold
    exact Nat.add_le_add_right (first.2 m held) k

theorem IsFirst.eq_some_iff (first : IsFirst P found) (n : Nat) :
    found = some n ↔ P n ∧ ∀ m, P m → n ≤ m := by
  cases found with
  | none => exact ⟨nofun, fun least => absurd least.1 (first n)⟩
  | some m =>
    refine ⟨fun eq => Option.some.inj eq ▸ first, fun least => ?_⟩
    exact congrArg some (Nat.le_antisymm (first.2 n least.1) (least.2 m first.1))

theorem IsFirst.eq_none_iff (first : IsFirst P found) : found = none ↔ ∀ n, ¬P n := by
  cases found with
  | none => exact ⟨fun _ => first, fun _ => rfl⟩
  | some n => exact ⟨nofun, fun missed => absurd first.1 (missed n)⟩

end First

/-- Whether the parentheses of a text are balanced up to a place, when some are open in front of
it. -/
def LevelsAt (depth : Nat) (t : Text) (n : Nat) : Prop :=
  n < t.length ∧ depth + (t.take (n + 1)).count '(' = (t.take (n + 1)).count ')'

theorem levelsAt_cons {depth deeper : Nat} {c : Char} (t : Text)
    (step : depth + [c].count '(' = deeper + [c].count ')') (opened : 0 < deeper) (n : Nat) :
    LevelsAt depth (c :: t) n ↔ ∃ m, LevelsAt deeper t m ∧ m + 1 = n := by
  have whole (m : Nat) : (c :: t).take (m + 1) = [c] ++ t.take m := rfl
  constructor
  · rintro ⟨le, level⟩
    rw [whole, count_append, count_append] at level
    cases n with
    | zero =>
      rw [take_zero, count_nil, count_nil] at level
      omega
    | succ n =>
      rw [length_cons] at le
      exact ⟨n, ⟨by omega, by omega⟩, rfl⟩
  · rintro ⟨m, ⟨le, level⟩, rfl⟩
    refine ⟨Nat.succ_lt_succ le, ?_⟩
    rw [whole, count_append, count_append]
    omega

theorem isFirst_closingOffset? (depth : Nat) (t : Text) :
    IsFirst (LevelsAt (depth + 1) t) (closingOffset? (depth + 1) t) := by
  induction t generalizing depth with
  | nil => exact fun n levels => absurd levels.1 (Nat.not_lt_zero n)
  | cons c t ih =>
    by_cases opens : c = '('
    · subst opens
      exact (ih (depth + 1)).shift (levelsAt_cons t rfl (Nat.succ_pos _))
    · by_cases closes : c = ')'
      · subst closes
        cases depth with
        | zero => exact ⟨⟨Nat.succ_pos _, rfl⟩, fun m _ => Nat.zero_le m⟩
        | succ depth => exact (ih depth).shift (levelsAt_cons t rfl (Nat.succ_pos _))
      · rw [closingOffset?_other opens closes]
        refine (ih depth).shift (levelsAt_cons t ?_ (Nat.succ_pos _))
        rw [count_singleton, count_singleton, if_neg (by simpa using opens),
          if_neg (by simpa using closes)]

def ClosesAt (t : Text) (opening close : Nat) : Prop :=
  opening ≤ close ∧ close < t.length ∧
    (t.extract opening (close + 1)).count '(' = (t.extract opening (close + 1)).count ')'

theorem isFirst_closesAt {t : Text} {opening : Nat} (opens : t[opening]? = some '(') :
    IsFirst (ClosesAt t opening) ((closingOffset? 0 (t.drop opening)).map (· + opening)) := by
  obtain ⟨inside, eq⟩ := List.getElem?_eq_some_iff.mp opens
  have ahead : t.drop opening = '(' :: t.drop (opening + 1) := by
    rw [drop_eq_getElem_cons inside, eq]
  have first : IsFirst (LevelsAt 0 (t.drop opening)) (closingOffset? 0 (t.drop opening)) := by
    rw [ahead]
    exact (isFirst_closingOffset? 0 _).shift (levelsAt_cons _ rfl Nat.one_pos)
  refine first.shift fun n => ?_
  constructor
  · rintro ⟨le, lt, level⟩
    obtain ⟨m, rfl⟩ := Nat.exists_eq_add_of_le' le
    refine ⟨m, ⟨by rw [length_drop]; omega, ?_⟩, rfl⟩
    rwa [extract_eq_take_drop, Nat.add_right_comm, Nat.add_sub_cancel,
      ← Nat.zero_add (count '(' _)] at level
  · rintro ⟨m, ⟨lt, level⟩, rfl⟩
    rw [length_drop] at lt
    refine ⟨by omega, by omega, ?_⟩
    rwa [extract_eq_take_drop, Nat.add_right_comm, Nat.add_sub_cancel, ← Nat.zero_add (count '(' _)]

end Lexical

def Finder.EndsIn (finder : Finder) (c : Char) : Prop :=
  ∀ (t : Text) (cursor : Cursor) (found : Match), cursor.IsIn t →
    finder.findFrom cursor.index cursor.before cursor.after = some found →
      found.start.index < found.stop.index ∧ found.stop.before.head? = some c

namespace Alias

open Lexical Regex

theorem Identity.endsIn_of_isCall {namespaces : List Text} {identity : Identity} {name : Text}
    {finder : Finder} (isCall : identity.isCall)
    (named : Pattern.parse identity.identifier = .name name)
    (compiled : identity.finder? namespaces = some finder) : finder.EndsIn '(' := by
  rw [finder?, named] at compiled
  simp only [isCall, Option.some.injEq] at compiled
  subst compiled
  intro t cursor found here hit
  obtain ⟨place, placeIn, -, matched⟩ := matchAt_of_findFrom here hit
  obtain ⟨stop, final, matches', ends⟩ := exists_of_run _ place [] _ _ matched
  cases ends
  cases matches' with
  | seq front behind =>
    cases behind with
    | seq blank last =>
      cases last with
      | one ahead accepted =>
        obtain ⟨middleIn, le⟩ := front.isIn placeIn
        obtain ⟨-, le'⟩ := blank.isIn middleIn
        refine ⟨Nat.lt_succ_of_le (Nat.le_trans le le'), ?_⟩
        rw [eq_of_beq accepted]
        rfl

/-- The texts and places of a call, which is opened and closed by the parentheses at two places. -/
structure Call.IsAt (t : Text) (low opening close : Nat) (call : Call) : Prop where
  opens : t[opening]? = some '('
  closes : ClosesAt t opening close ∧ ∀ n, ClosesAt t opening n → close ≤ n
  wide : opening < close
  lead : ∃ start, low ≤ start ∧ start ≤ opening ∧ call.lead = t.extract low start
  inside : call.inside = t.extract (opening + 1) close
  isIn : call.after.IsIn t
  passed : call.after.index = close + 1

section Calls

variable {finder : Finder} {cur : Cursor} {call : Call} {t : Text}

theorem after_eq_drop (here : cur.IsIn t) : cur.after = t.drop cur.index := by
  rw [here.2, ← here.1, drop_left' length_reverse]

theorem exists_isAt (ends : finder.EndsIn '(') (here : cur.IsIn t)
    (hit : findCall? finder cur = some call) :
      ∃ opening close, call.IsAt t cur.index opening close := by
  obtain ⟨m, last, pre, held, tl, first, isIn, behind, before, ha, closing, lead, inside,
    after, passed, -⟩ :=
    exists_of_findCall? here hit
  obtain ⟨wide, final⟩ := ends t cur m here first
  obtain ⟨whole, index⟩ := isIn.stop
  rw [before, head?_cons, Option.some.injEq] at final
  subst final
  rw [before, length_cons] at index
  rw [before, reverse_cons, append_assoc, singleton_append] at whole
  have ahead : t.drop pre.length = '(' :: m.stop.after := by
    rw [← whole, drop_left' length_reverse]
  have opens : t[pre.length]? = some '(' := by
    rw [← whole, getElem?_append_right (by simp), length_reverse, Nat.sub_self]
    rfl
  have closes := ((isFirst_closesAt opens).eq_some_iff (held.length + 1 + pre.length)).mp (by
    rw [ahead, closing]
    rfl)
  refine ⟨pre.length, held.length + 1 + pre.length, opens, closes, by omega,
    ⟨m.start.index, behind, by omega, ?_⟩, ?_, after, by omega⟩
  · rw [lead, Cursor.spanTo, after_eq_drop here]
  · have next : t.drop (pre.length + 1) = held ++ ')' :: tl := by
      rw [← drop_drop, ahead, ← ha]
      rfl
    rw [inside, extract_eq_take_drop, next, Nat.add_right_comm, Nat.add_assoc, Nat.add_sub_cancel,
      take_left]

/-- The replacement of calls as it is done step by step, with no bound on the number of steps. It
may break off where no call is found. -/
inductive Expands (identity : Identity) (finder : Finder) (location : Location) :
    Cursor → Reported Text → Prop
  | missing {cursor : Cursor} (missed : findCall? finder cursor = none) :
      Expands identity finder location cursor (cursor.after,
        if breaksOff finder cursor then [Error.aborted.diagnostic location] else [])
  | call {cursor : Cursor} {call : Call} {rest : Reported Text} (image : Text → Reported Text)
      (found : findCall? finder cursor = some call)
      (arguments : ∀ argument ∈ splitArguments call.inside,
        Expands identity finder location (.start (Text.trim argument)) (image argument))
      (more : Expands identity finder location call.after rest) :
      Expands identity finder location cursor
        (let arguments := (splitArguments call.inside).map image
         let replaced := applyCall identity location (arguments.map Prod.fst)
         (call.lead ++ replaced.1 ++ rest.1,
          arguments.flatMap Prod.snd ++ identity.deprecation location ++ replaced.2 ++ rest.2))

theorem expands_expandFrom (identity : Identity) (finder : Finder)
    (location : Location) {fuel : Nat} (here : cur.IsIn t) (enough : cur.after.length < fuel) :
    Expands identity finder location cur (expandFrom identity finder location fuel cur) := by
  induction fuel generalizing cur t with
  | zero => exact absurd enough (Nat.not_lt_zero _)
  | succ fuel ih =>
    unfold expandFrom
    split
    · next missed => exact .missing missed
    · next call hit =>
      obtain ⟨m, last, pre, held, tl, -, isIn, behind, -, ha, -, -, inside, after, -, -, rest⟩ :=
        exists_of_findCall? here hit
      have shorter : held.length + tl.length + 1 ≤ cur.after.length := by
        have span := (here.after_eq isIn.stop (Nat.le_trans behind isIn.ordered)).1
        rw [span, ha, length_append, length_append, length_cons]
        omega
      refine .call (fun argument =>
        expandFrom identity finder location fuel (.start (Text.trim argument))) hit ?_ (ih after ?_)
      · intro argument mem
        have le := (infix_trim_of_mem_splitArguments mem).length_le
        rw [inside] at le
        refine ih (Cursor.isIn_start _) ?_
        show (Text.trim argument).length < fuel
        omega
      · rw [rest]
        omega

end Calls

/-- A parenthesis is closed at the first place where the parentheses are balanced. A call whose name
ends at one reaches there, with its arguments inside, and the replacement of calls comes to an
end. -/
theorem calls_close_and_end (t : Text) :
    (∀ opening, t[opening]? = some '(' →
      (∀ close, (closingOffset? 0 (t.drop opening)).map (· + opening) = some close ↔
        ClosesAt t opening close ∧ ∀ n, ClosesAt t opening n → close ≤ n) ∧
      (closingOffset? 0 (t.drop opening) = none ↔ ∀ n, ¬ClosesAt t opening n)) ∧
    (∀ (finder : Finder) (cursor : Cursor) (call : Call), finder.EndsIn '(' → cursor.IsIn t →
      findCall? finder cursor = some call →
      ∃ opening close, call.IsAt t cursor.index opening close ∧
        ∀ argument ∈ splitArguments call.inside,
          Text.trim argument <:+: t.extract (opening + 1) close) ∧
    (∀ (namespaces : List Text) (identity : Identity) (name : Text) (finder : Finder),
      identity.isCall →
      Pattern.parse identity.identifier = .name name → identity.finder? namespaces = some finder →
      finder.EndsIn '(') ∧
    ∀ (identity : Identity) (finder : Finder) (location : Location),
      Expands identity finder location (.start t) (expandCalls identity finder location t) := by
  refine ⟨?_, ?_, ?_, ?_⟩
  · intro opening opens
    have first := isFirst_closesAt opens
    exact ⟨first.eq_some_iff, Option.map_eq_none_iff.symm.trans first.eq_none_iff⟩
  · intro finder cursor call ends here hit
    obtain ⟨opening, close, isAt⟩ := exists_isAt ends here hit
    exact ⟨opening, close, isAt, fun argument mem =>
      isAt.inside ▸ infix_trim_of_mem_splitArguments mem⟩
  · intro namespaces identity name finder isCall named compiled
    exact identity.endsIn_of_isCall isCall named compiled
  · intro identity finder location
    exact expands_expandFrom identity finder location (Cursor.isIn_start t) (Nat.lt_succ_self _)

def bracketed (identifier : String) : Identity :=
  { identifier := identifier.toList, real := "<p>".toList, parameters := ["p".toList] }

theorem nested_call_closes_last :
    (ClosesAt "f(g(x))y".toList 1 6 ∧ ∀ n, ClosesAt "f(g(x))y".toList 1 n → 6 ≤ n) ∧
      ∀ finder, (bracketed "f").finder? [] = some finder → finder.EndsIn '(' := by
  obtain ⟨closes, -, ends, -⟩ := calls_close_and_end "f(g(x))y".toList
  exact ⟨((closes 1 rfl).1 6).mp rfl, fun finder =>
    ends [] (bracketed "f") "f".toList finder rfl rfl⟩

/-- The last choice of a pattern alone is followed by the parenthesis of a call. A match of another
one is taken for a call all the same, and the parenthesis for a part of its argument. -/
theorem first_choice_keeps_parenthesis :
    ((bracketed "`a|b`").finder? []).map (fun finder =>
      ((findCall? finder (.start "a(x)".toList)).map Call.inside,
        (expandCalls (bracketed "`a|b`") finder {} "a(x)".toList).1)) =
      some (some "(x".toList, "<(x>".toList) := by
  decide +kernel

end Alias

end PrimePlus
