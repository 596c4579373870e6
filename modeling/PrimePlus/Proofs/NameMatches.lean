import PrimePlus.Pattern
import PrimePlus.Proofs.MatchSeams

/-!
Where a name is found when namespaces are in use.
-/

namespace PrimePlus

open List hiding all any
open Cursor

open Text (dropLead?)

variable {r : Regex} {t : Text} {found : Match}

namespace Text

theorem dropLead?_append (t lead more : Text) :
    dropLead? t (lead ++ more) = (dropLead? t lead).bind (dropLead? · more) := by
  apply Option.ext
  simp [Option.bind_eq_some_iff, dropLead?_eq_some_iff]

theorem dropLead?_cons_cons (c d : Char) (t lead : Text) :
    dropLead? (c :: t) (d :: lead) = if c == d then dropLead? t lead else none := by
  apply Option.ext
  split <;> simp_all [dropLead?_eq_some_iff]

end Text

def Finder.takesAll (finder : Finder) (t : Text) : Bool :=
  (finder.findFrom 0 [] t).any fun found => found.lead.isEmpty && found.tail.isEmpty

namespace Regex

variable {α : Type} (cur : Cursor) (groups : Groups) (next : Continuation α)

theorem run_text (t : Text) :
    (text t).run cur groups next =
      (dropLead? cur.after t).bind fun tl =>
        next ⟨cur.index + t.length, t.reverse ++ cur.before, tl⟩ groups := by
  induction t generalizing cur with
  | nil =>
    rfl
  | cons c t ih =>
    obtain ⟨i, pre, after⟩ := cur
    have step : (text (c :: t)).run ⟨i, pre, after⟩ groups next =
      (char c).run ⟨i, pre, after⟩ groups fun cur groups =>
        (text t).run cur groups next := rfl
    rw [step]
    unfold char run
    cases after with
    | nil => rfl
    | cons d tl =>
      dsimp only
      rw [Text.dropLead?_cons_cons, ih]
      split
      · next eq =>
        rw [beq_iff_eq.mp eq]
        simp [Cursor.step, Nat.add_comm, Nat.add_left_comm]
      · rfl

theorem run_text_append (left right : Text) :
    (text (left ++ right)).run cur groups next =
      (text left).run cur groups fun cur groups => (text right).run cur groups next := by
  simp only [run_text, Text.dropLead?_append, Option.bind_assoc, length_append,
    reverse_append, append_assoc, Nat.add_assoc]

theorem run_any (choices : List Regex) :
    (any choices).run cur groups next =
      choices.findSome? fun choice => choice.run cur groups next := by
  induction choices with
  | nil =>
    unfold any run
    split <;> rfl
  | cons choice tl ih =>
    cases tl with
    | nil =>
      rw [any, findSome?_singleton]
    | cons o tl =>
      rw [any, run, ih]
      · rfl
      · exact cons_ne_nil o tl

theorem run_opt (r : Regex) :
    (opt r).run cur groups next = (r.run cur groups next).or (next cur groups) := by
  unfold opt
  rw [run]
  cases r.run cur groups next <;> rfl

variable (ne : t ≠ []) (hm : r.matchAt (.start t) = some found) (whole : found.stop.after = [])

include ne hm whole in
theorem pieces_of_whole : r.pieces t = [.hit found] := by
  obtain ⟨isIn, start⟩ := isIn_of_matchAt (isIn_start t) hm
  -- an empty match would leave the first character as a gap
  have reads : 0 < found.length := by
    have stop := isIn.stop
    rw [IsIn, whole, append_nil] at stop
    rw [Match.length, start, stop.2, ← length_reverse, stop.1]
    exact length_pos_iff.mpr ne
  cases t with
  | nil => exact absurd rfl ne
  | cons c t =>
    have first : r.matchAt ⟨0, [], c :: t⟩ = some found := hm
    rw [pieces, piecesFrom, matchAt_of_admits, first]
    dsimp only
    rw [if_neg (ne_of_gt reads), piecesFrom_stop isIn start reads, piecesAt, whole]
    rfl

include ne hm whole in
theorem replaceAll_of_whole (image : Match → Text) : r.replaceAll t image = image found := by
  rw [replaceAll_eq_assemble, pieces_of_whole ne hm whole]
  exact append_nil _

include hm whole in
theorem takesAll_of_matchAt : (Finder.regex r).takesAll t := by
  have search : r.findFrom 0 [] t = some found := by
    cases t with
    | nil => exact hm
    | cons c t => rw [findFrom_cons]; exact congrArg (Option.or · _) hm
  have start := (isIn_of_matchAt (isIn_start t) hm).2
  rw [Finder.takesAll, Finder.findFrom, search]
  simp [Match.lead, Match.tail, start, whole, Cursor.start]

theorem matchAt_of_takesAll (takes : (Finder.regex r).takesAll t) :
    ∃ found, r.matchAt (.start t) = some found ∧ found.stop.after = [] := by
  obtain ⟨found, search, all⟩ := (Option.any_eq_true _ _).mp takes
  obtain ⟨cur, hi, -, hm⟩ := matchAt_of_findFrom (isIn_start t) search
  have start := (isIn_of_matchAt hi hm).2
  simp only [Match.lead, start, Bool.and_eq_true, List.isEmpty_iff, reverse_eq_nil_iff] at all
  have place : cur = .start t := hi.eq_of_index_eq (isIn_start t) (by
    rw [hi.2, all.1]
    rfl)
  exact ⟨found, place ▸ hm, all.2⟩

end Regex

namespace Pattern

open Regex
open Unicode (isWordChar)

variable {α : Type} (cur : Cursor) (groups : Groups) (next : Continuation α)

def qualifier (space : Text) : Text :=
  space ++ "::".toList

theorem unqualified_eq (spaces : List Text) (t : Text) :
    unqualified spaces t =
      (spaces.findSome? fun space => dropLead? t (qualifier space)).getD t := by
  unfold unqualified qualifier
  simp only [Text.dropLead?_append]

theorem unqualified_cases (spaces : List Text) (t : Text) :
    (∃ u space back, spaces = u ++ space :: back ∧
      t = qualifier space ++ unqualified spaces t ∧
      ∀ o ∈ u, dropLead? t (qualifier o) = none) ∨
    unqualified spaces t = t ∧ ∀ space ∈ spaces, dropLead? t (qualifier space) = none := by
  rw [unqualified_eq]
  cases found : spaces.findSome? fun space => dropLead? t (qualifier space) with
  | none => exact .inr ⟨rfl, findSome?_eq_none_iff.mp found⟩
  | some tl =>
    obtain ⟨u, space, back, eq, dropped, missed⟩ := findSome?_eq_some_iff.mp found
    exact .inl ⟨u, space, back, eq, Text.dropLead?_eq_some_iff.mp dropped, missed⟩

theorem unqualified_suffix (spaces : List Text) (t : Text) : unqualified spaces t <:+ t := by
  rcases unqualified_cases spaces t with ⟨_, space, _, _, eq, _⟩ | ⟨eq, _⟩
  · exact ⟨qualifier space, eq.symm⟩
  · exact ⟨[], (nil_append _).trans eq⟩

def qualifiable (namespaces : List Text) (base : Text) : Regex :=
  .seq (opt (.seq (any (namespaces.map Regex.text)) (lit "::"))) (Regex.text base)

theorem run_nameRegexIn (spaces : List Text) (t : Text) :
    (nameRegexIn spaces t).run cur groups next =
      (edged (unqualified spaces t) (qualifiable spaces (unqualified spaces t))).run
        cur groups next := by
  unfold nameRegexIn
  cases spaces with
  | cons space tl => rfl
  | nil =>
    -- without namespaces no qualifier can be read, so the one expression serves for all lists
    have hp (cur : Cursor) (groups : Groups) (next : Continuation α) :
        (literalText false t).run cur groups next = (qualifiable [] t).run cur groups next := by
      rw [qualifiable, run, run_opt, run, run_any]
      rfl
    have own : unqualified [] t = t := rfl
    rw [own, isEmpty_nil, if_pos rfl, nameRegex, edged, edged]
    simp only [run, hp]

/-- Whether a text has word edges at its ends where a search for it as a name asks for them. -/
def standsAlone (namespaces : List Text) (t : Text) : Bool :=
  let base := unqualified namespaces t
  (!startsInWord base || t.head?.any isWordChar) && (!endsInWord base || t.getLast?.any isWordChar)

theorem run_edge_of {asked : Bool} {cur : Cursor}
    (there : asked → cur.atEdge isWordChar) (groups : Groups) (next : Continuation α) :
    (if asked then edge else .empty : Regex).run cur groups next = next cur groups := by
  cases asked with
  | false => rfl
  | true =>
    rw [if_pos rfl, edge, run, if_pos (there rfl)]

theorem run_qualifiable (spaces : List Text) (base : Text) :
    (qualifiable spaces base).run cur groups next =
      (spaces.findSome? fun space =>
        (Regex.text (qualifier space ++ base)).run cur groups next).or
          ((Regex.text base).run cur groups next) := by
  rw [qualifiable, run, run_opt, run, run_any, findSome?_map]
  simp only [run_text_append, qualifier]
  rfl

variable {spaces : List Text} {t : Text}

theorem exists_of_findFrom {within : Text}
    (search : (nameRegexIn spaces t).findFrom 0 [] within = some found) :
    ∃ middle, (middle = [] ∨ ∃ space ∈ spaces, middle = qualifier space) ∧
      within = found.lead ++ (middle ++ unqualified spaces t ++ found.tail) := by
  obtain ⟨cur, hi, -, hm⟩ := matchAt_of_findFrom (isIn_start within) search
  have passed {asked : Bool} {cur : Cursor} {groups : Groups} {next : Continuation Match}
      (edged : (if asked then edge else .empty : Regex).run cur groups next = some found) :
      next cur groups = some found := by
    cases asked with
    | false => exact edged
    | true => exact (Option.ite_none_right_eq_some.mp edged).2
  have read {lead : Text} {groups : Groups}
      (ran : ((Regex.text lead).run cur groups fun place groups =>
        (if endsInWord (unqualified spaces t) then edge else .empty : Regex).run place groups
          fun stop groups => some (Match.mk cur stop groups)) = some found) :
      within = found.lead ++ (lead ++ found.tail) := by
    rw [run_text] at ran
    obtain ⟨tl, ha, ends⟩ := Option.bind_eq_some_iff.mp ran
    cases passed ends
    rw [← hi.1, Text.dropLead?_eq_some_iff.mp ha]
    rfl
  rw [matchAt, run_nameRegexIn] at hm
  have hb := passed hm
  rw [run, run_qualifiable] at hb
  rcases Option.or_eq_some_iff.mp hb with qualified | ⟨-, hp⟩
  · obtain ⟨space, mem, ran⟩ := exists_of_findSome?_eq_some qualified
    exact ⟨qualifier space, .inr ⟨space, mem, rfl⟩, read ran⟩
  · refine ⟨[], .inl rfl, ?_⟩
    exact read hp

theorem infix_of_isMatch {within : Text} (found : (nameRegexIn spaces t).isMatch within) :
    unqualified spaces t <:+: within := by
  obtain ⟨first, search⟩ := Option.isSome_iff_exists.mp found
  obtain ⟨middle, -, whole⟩ := exists_of_findFrom search
  exact ⟨first.lead ++ middle, first.tail, by rw [whole]; simp⟩

theorem matchAt_nameRegexIn (alone : standsAlone spaces t) :
    (nameRegexIn spaces t).matchAt (.start t) = some ⟨.start t, ⟨t.length, t.reverse, []⟩, []⟩ := by
  obtain ⟨hu, back⟩ := Bool.and_eq_true_iff.mp alone
  have opens (asked : startsInWord (unqualified spaces t)) : (start t).atEdge isWordChar := by
    simpa [asked, atEdge, lastIs, nextIs, start] using hu
  have closes (asked : endsInWord (unqualified spaces t)) :
      (mk t.length t.reverse []).atEdge isWordChar := by
    simpa [asked, atEdge, lastIs, nextIs] using back
  rw [matchAt, run_nameRegexIn, edged, run, run_edge_of opens, run, run_qualifiable]
  have whole {lead : Text} (eq : t = lead) :
      ((Regex.text lead).run (.start t) [] fun cur groups =>
        (if endsInWord (unqualified spaces t) then edge else .empty : Regex).run cur groups
          fun stop groups => some (Match.mk (.start t) stop groups)) =
        some ⟨.start t, ⟨t.length, t.reverse, []⟩, []⟩ := by
    subst eq
    have ha : dropLead? (start t).after t = some [] :=
      Text.dropLead?_eq_some_iff.mpr (append_nil t).symm
    rw [run_text, ha]
    simp only [start, Nat.zero_add, append_nil]
    exact run_edge_of closes _ _
  have fails {space : Text} (absent : dropLead? t (qualifier space) = none)
      (next : Continuation Match) :
      (Regex.text (qualifier space ++ unqualified spaces t)).run (.start t) [] next = none := by
    rw [run_text_append, run_text, start, absent]
    rfl
  -- the qualifiers that are tried before the right one do not even stand at the front of the text
  rcases unqualified_cases spaces t with ⟨hu, space, back, eq, fits, others⟩ | ⟨eq, missed⟩
  · have first := findSome?_eq_some_iff.mpr
      ⟨hu, space, back, eq, whole fits, fun o mem => fails (others o mem) _⟩
    rw [first]
    rfl
  · rw [findSome?_eq_none_iff.mpr fun space mem => fails (missed space mem) _]
    exact whole eq.symm

end Pattern

end PrimePlus
