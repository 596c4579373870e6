import PrimePlus.Proofs.FlatMatches

/-!
A search for a name finds the occurrences that have word edges at the sides of the name, from left
to right without overlap. -/

namespace PrimePlus

open List hiding all any
open Cursor (between)
open Unicode (isNameChar isWordChar)

/-- The places from `start` on at which a text of a given size is taken, each one the first that
does not overlap the one before. -/
inductive Leftmost (occurs : Nat → Prop) (size : Nat) : Nat → List Nat → Prop
  | done {start : Nat} (never : ∀ i, start ≤ i → ¬occurs i) : Leftmost occurs size start []
  | next {start i : Nat} {rest : List Nat} (here : occurs i) (ahead : start ≤ i)
      (first : ∀ j, start ≤ j → j < i → ¬occurs j) (more : Leftmost occurs size (i + size) rest) :
      Leftmost occurs size start (i :: rest)

theorem Leftmost.of_succ {occurs : Nat → Prop} {size start : Nat} {places : List Nat}
    (missed : ¬occurs start) (later : Leftmost occurs size (start + 1) places) :
    Leftmost occurs size start places := by
  cases later with
  | done never =>
    refine .done fun i ha => ?_
    rcases ha.eq_or_lt with rfl | hv
    · exact missed
    · exact never i hv
  | next here ha first more =>
    refine .next here (Nat.le_of_succ_le ha) (fun j onward pre => ?_) more
    rcases onward.eq_or_lt with rfl | hv
    · exact missed
    · exact first j hv pre

namespace Pattern

variable {name t pre after : Text}

/-- A name stands between two texts with word edges, by some class of word characters, at the sides
where it has characters of a name. -/
def Edged (inWord : Char → Bool) (name before after : Text) : Prop :=
  (startsInWord name → before.getLast?.any inWord ≠ name.head?.any inWord) ∧
    (endsInWord name → name.getLast?.any inWord ≠ after.head?.any inWord)

/-- No character of a name stands next to a side where a name has one. -/
def Whole (name before after : Text) : Prop :=
  (startsInWord name → before.getLast?.any isNameChar = false) ∧
    (endsInWord name → after.head?.any isNameChar = false)

def StandsAt (condition : Text → Text → Prop) (name t : Text) (i : Nat) : Prop :=
  ∃ before after, t = before ++ (name ++ after) ∧ before.length = i ∧ condition before after

theorem edged_isNameChar_iff : Edged isNameChar name pre after ↔ Whole name pre after := by
  unfold Edged Whole startsInWord endsInWord
  simp +contextual

theorem any_congr {hit : Option Char} {left right : Char → Bool}
    (eq : ∀ c ∈ hit, left c = right c) : hit.any left = hit.any right := by
  cases hit with
  | none => rfl
  | some c => exact eq c rfl

theorem edged_iff_whole (eq : ∀ c ∈ pre ++ (name ++ after), isWordChar c = isNameChar c) :
    Edged isWordChar name pre after ↔ Whole name pre after := by
  simp only [mem_append, or_imp, forall_and] at eq
  obtain ⟨inBefore, inName, inAfter⟩ := eq
  rw [← edged_isNameChar_iff, Edged, Edged,
    any_congr fun c last => inBefore c (mem_of_getLast? last),
    any_congr fun c head => inName c (mem_of_mem_head? head),
    any_congr fun c last => inName c (mem_of_getLast? last),
    any_congr fun c head => inAfter c (mem_of_mem_head? head)]

theorem run_side {α : Type} (asked : Bool) (cur : Cursor) (gs : Groups)
    (next : Regex.Continuation α) :
    (if asked then Regex.edge else .empty : Regex).run cur gs next =
      if asked → cur.atEdge isWordChar then next cur gs else none := by
  cases asked with
  | false => rfl
  | true => simp [Regex.edge, Regex.run]

theorem matchAt_nameRegex (ne : name ≠ []) {hit : Match} :
    (nameRegex false name).matchAt (between pre t) = some hit ↔
      ∃ after, t = name ++ after ∧ Edged isWordChar name pre after ∧
        hit = ⟨between pre t, between (pre ++ name) after, []⟩ := by
  have read (cur : Cursor) (next : Regex.Continuation Match) :
      (literalText false name).run cur [] next = (Regex.text name).run cur [] next := rfl
  have place (after : Text) : (⟨(between pre t).index + name.length,
      name.reverse ++ (between pre t).before, after⟩ : Cursor) = between (pre ++ name) after := by
    simp [between]
  have opens (after : Text) : (between pre (name ++ after)).atEdge isWordChar ↔
      pre.getLast?.any isWordChar ≠ name.head?.any isWordChar := by
    rw [Cursor.atEdge_between, head?_append_of_ne_nil _ ne, bne_iff_ne]
  have closes (after : Text) : (between (pre ++ name) after).atEdge isWordChar ↔
      name.getLast?.any isWordChar ≠ after.head?.any isWordChar := by
    rw [Cursor.atEdge_between, getLast?_append_of_ne_nil _ ne, bne_iff_ne]
  rw [Regex.matchAt, nameRegex, edged, Regex.run, run_side]
  simp only [Regex.run, read, Regex.run_text, run_side, place, Option.ite_none_right_eq_some,
    Option.bind_eq_some_iff, Option.some_inj, Text.dropLead?_eq_some_iff]
  constructor
  · rintro ⟨opened, after, rfl, hc, rfl⟩
    exact ⟨after, rfl, ⟨fun asked => (opens after).mp (opened asked),
      fun asked => (closes after).mp (hc asked)⟩, rfl⟩
  · rintro ⟨after, rfl, edges, rfl⟩
    exact ⟨fun asked => (opens after).mpr (edges.1 asked), after, rfl,
      fun asked => (closes after).mpr (edges.2 asked), rfl⟩

theorem standsAt_length_iff {cond : Text → Text → Prop} :
    StandsAt cond name (pre ++ t) pre.length ↔ ∃ after, t = name ++ after ∧ cond pre after := by
  constructor
  · rintro ⟨lead, after, whole, length, stands⟩
    obtain ⟨rfl, r⟩ := append_inj whole length.symm
    exact ⟨after, r, stands⟩
  · rintro ⟨after, rfl, stands⟩
    exact ⟨pre, after, rfl, rfl, stands⟩

theorem leftmost_piecesAt (ne : name ≠ []) (fresh : Bool) (pre t : Text) :
    let hits := Regex.hits ((nameRegex false name).piecesAt fresh (between pre t))
    Leftmost (StandsAt (Edged isWordChar name) name (pre ++ t)) name.length pre.length
        (hits.map fun hit => hit.start.index) ∧ ∀ hit ∈ hits, hit.text = name := by
  -- a match may read any number of characters
  induction size : t.length using Nat.strongRecOn generalizing fresh pre t with
  | _ n ih =>
    subst size
    cases here : (nameRegex false name).matchAt (between pre t) with
    | some hit =>
      obtain ⟨after, rfl, edges, rfl⟩ := (matchAt_nameRegex ne).mp here
      have shorter : after.length < (name ++ after).length := by
        simpa using length_pos_iff.mpr ne
      obtain ⟨more, texts⟩ := ih _ shorter false (pre ++ name) after rfl
      rw [append_assoc, length_append] at more
      rw [Regex.piecesAt_hit fresh ne here rfl, Regex.hits]
      refine ⟨.next (standsAt_length_iff.mpr ⟨after, rfl, edges⟩) (Nat.le_refl _)
        (fun j onward behind => absurd onward (Nat.not_le_of_lt behind)) more, ?_⟩
      exact forall_mem_cons.mpr ⟨Cursor.spanTo_between pre name after, texts⟩
    | none =>
      have missed : ¬StandsAt (Edged isWordChar name) name (pre ++ t) pre.length := by
        rintro stands
        obtain ⟨after, eq, edges⟩ := standsAt_length_iff.mp stands
        cases here.symm.trans ((matchAt_nameRegex ne).mpr ⟨after, eq, edges, rfl⟩)
      cases t with
      | nil =>
        rw [Regex.piecesAt_nil here]
        refine ⟨.done fun i ha => ?_, forall_mem_nil _⟩
        rintro ⟨lead, after, whole, rfl, -⟩
        have lengths := congrArg length whole
        have filled := length_pos_iff.mpr ne
        simp only [append_nil, length_append] at lengths
        omega
      | cons c r =>
        obtain ⟨later, texts⟩ := ih _ (Nat.lt_succ_self _) true (pre ++ [c]) r rfl
        rw [append_assoc, length_append] at later
        rw [Regex.piecesAt_gap fresh here]
        exact ⟨.of_succ missed later, texts⟩

/-- A name that is neither empty nor blank at an end, and has no backtick, is found exactly at its
leftmost occurrences with word edges at the sides where it has characters of a name. These are the
whole ones where the two classes of characters agree on the text. -/
theorem name_found_between_edges {name : Text} (filled : name ≠ [])
    (trimmed : Text.trim name = name) (plain : '\x60' ∉ name) (t : Text) :
    ∃ matcher, (parse name).matcher? false = some matcher ∧
      (∀ found ∈ matcher.finder.findAll t, found.text = name) ∧
      let places := (matcher.finder.findAll t).map fun found => found.start.index
      Leftmost (StandsAt (Edged isWordChar name) name t) name.length 0 places ∧
      ((∀ c ∈ t, isWordChar c = isNameChar c) →
        Leftmost (StandsAt (Whole name) name t) name.length 0 places) := by
  have named : parse name = .name name := by
    rw [parse, trimmed]
    split
    · exact absurd mem_cons_self plain
    · rfl
  obtain ⟨places, texts⟩ := leftmost_piecesAt filled true [] t
  refine ⟨⟨.regex (nameRegex false name), []⟩, by rw [named]; rfl, texts, places, fun same => ?_⟩
  have agree : StandsAt (Edged isWordChar name) name t = StandsAt (Whole name) name t := by
    funext i
    refine propext (exists_congr fun before => exists_congr fun after => ?_)
    refine and_congr_right fun whole => and_congr_right fun _ => edged_iff_whole ?_
    rwa [← whole]
  exact agree ▸ places

/-- A dotted name, once whole, once at the end of a longer word and once with another character for
its dot. -/
theorem name_found_between_edges_dotted :
    ∃ matcher, (parse "pt.x".toList).matcher? false = some matcher ∧
      Leftmost (StandsAt (Whole "pt.x".toList) "pt.x".toList "apt.x ptax pt.x".toList) 4 0
        ((matcher.finder.findAll "apt.x ptax pt.x".toList).map fun found => found.start.index) := by
  have agree : "apt.x ptax pt.x".toList.all fun c => isWordChar c == isNameChar c := by
    decide +kernel
  obtain ⟨matcher, compiled, -, -, whole⟩ := @name_found_between_edges "pt.x".toList (by decide)
    (by decide) (by decide) "apt.x ptax pt.x".toList
  exact ⟨matcher, compiled, whole fun c mem => by simpa using all_eq_true.mp agree c mem⟩

/-- The sign for a square is a character of a name and no word character. So a name that ends in it
is not found where it is the whole text. -/
theorem squared_name_is_missed :
    StandsAt (Whole "x²".toList) "x²".toList "x²".toList 0 ∧
      ((parse "x²".toList).matcher? false).map
        (fun matcher => (matcher.finder.findAll "x²".toList).length) = some 0 :=
  ⟨⟨[], [], rfl, rfl, by simp [Whole]⟩, by decide +kernel⟩

end Pattern

end PrimePlus
