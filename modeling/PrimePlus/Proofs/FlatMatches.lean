import Mathlib.Data.List.Forall2
import PrimePlus.Proofs.NameMatches

/-!
Matches as texts, for expressions in which only single characters are repeated.
-/

namespace PrimePlus

open List
open Cursor (step)
open Unicode (caseVariants isBlank)

namespace Text

variable {accepts : Char → Bool} {value : Bool} {t : Text} (filled : t ≠ [])
  (all : ∀ c ∈ t, accepts c = value)

include filled all

theorem any_head?_of_forall (after : Text) : (t ++ after).head?.any accepts = value := by
  obtain ⟨c, more, rfl⟩ := exists_cons_of_ne_nil filled
  exact all c mem_cons_self

theorem any_getLast?_of_forall (pre : Text) : (pre ++ t).getLast?.any accepts = value := by
  rw [getLast?_append_of_ne_nil pre filled, getLast?_eq_getLast_of_ne_nil filled]
  exact all _ (getLast_mem filled)

omit filled all in
theorem eq_nil_of_any_getLast? {pre : Text} (all : ∀ c ∈ t, accepts c)
    (ha : (pre ++ t).getLast?.any accepts = false) : t = [] := by
  by_contra filled
  exact Bool.false_ne_true (ha.symm.trans (any_getLast?_of_forall filled all pre))

end Text

namespace Cursor

def between (before after : Text) : Cursor :=
  ⟨before.length, before.reverse, after⟩

theorem step_between (pre : Text) (c : Char) (rest : Text) :
    (between pre (c :: rest)).step c rest = between (pre ++ [c]) rest := by
  simp [between, step]

theorem spanTo_between (pre read after : Text) :
    (between pre (read ++ after)).spanTo (between (pre ++ read) after) = read := by
  simp [between, spanTo]

theorem atEdge_between {accepts : Char → Bool} (pre after : Text) :
    (between pre after).atEdge accepts = (pre.getLast?.any accepts != after.head?.any accepts) := by
  simp [between, atEdge, lastIs, nextIs]

end Cursor

namespace Regex

open Cursor (between)

variable {stop : Cursor}

variable {read pre after : Text} {groups final : Groups} {cur : Cursor} {found : Match}
  {c : Char}

section Flat

variable {α : Type}

/-- Only single characters are repeated. -/
@[simp] def IsFlat : Regex → Prop
  | .empty | .one _ | .assert _ => True
  | .seq first second | .alt first second => first.IsFlat ∧ second.IsFlat
  | .many _ (.one _) => True
  | .many _ _ => False
  | .capture _ body => body.IsFlat

theorem isFlat_chars (accepts : Char → Char → Bool) (word : Text) :
    (word.foldr (fun c rest => seq (one (accepts c)) rest) empty).IsFlat := by
  induction word with
  | nil => trivial
  | cons c word ih => exact ⟨trivial, ih⟩

theorem isFlat_text (t : Text) : (text t).IsFlat :=
  isFlat_chars _ t

theorem isFlat_side (asked : Bool) : (if asked then edge else .empty).IsFlat := by
  cases asked <;> trivial

theorem isFlat_litAnyCase (s : String) : (litAnyCase s).IsFlat :=
  isFlat_chars _ s.toList

theorem rounds_isSome {greedy : Bool} {accepts : Char → Bool} {next : Continuation α}
    (goes : (next cur groups).isSome ∨ ∃ stop final,
      Matches (.many greedy (.one accepts)) cur groups stop final ∧ (next stop final).isSome) :
    (rounds (one accepts).run greedy next cur.after cur groups).isSome := by
  generalize ha : cur.after = bound
  induction bound generalizing cur with
  | nil =>
    rcases goes with stops | ⟨stop, final, hm, -⟩
    · exact stops
    · cases hm with
      | once round | more round =>
        cases round with
        | one read => rw [ha] at read; cases read
  | cons c rest ih =>
    have again (acc : accepts c) (further : (rounds (one accepts).run greedy next
          rest (cur.step c rest) groups).isSome) :
        ((one accepts).run cur groups fun reached groups =>
          if cur.index < reached.index then
            rounds (one accepts).run greedy next rest reached groups
          else none).isSome := by
      simpa [run, ha, acc, step] using further
    -- the two ways on are tried in either order, and one of them succeeds
    have either (found : (next cur groups).isSome ∨
        ((one accepts).run cur groups fun reached groups =>
          if cur.index < reached.index then
            rounds (one accepts).run greedy next rest reached groups
          else none).isSome) :
        (rounds (one accepts).run greedy next (c :: rest) cur groups).isSome := by
      unfold rounds
      dsimp only
      split
      all_goals
        split
        · rfl
        · next missed =>
          rw [missed] at found
          simpa using found
    rcases goes with stops | ⟨stop, final, hm, ends⟩
    · exact either (.inl stops)
    · refine either (.inr ?_)
      cases hm with
      | once round =>
        cases round with
        | one read acc =>
          cases ha.symm.trans read
          exact again acc (ih (.inl ends) rfl)
      | more round further =>
        cases round with
        | one read acc =>
          cases ha.symm.trans read
          exact again acc (ih (.inr ⟨stop, final, further, ends⟩) rfl)

/-- A search for a flat expression misses nothing. -/
theorem run_isSome_of_matches {r : Regex} (flat : r.IsFlat) {start : Cursor} {next : Continuation α}
    (hm : Matches r start groups stop final) (goes : (next stop final).isSome) :
    (r.run start groups next).isSome := by
  induction r generalizing start stop groups final next with
  | empty =>
    cases hm
    exact goes
  | one accepts =>
    cases hm with
    | one ha acc => simpa [run, ha, acc] using goes
  | assert cond =>
    cases hm with
    | assert met => simpa [run, met] using goes
  | seq first second ihFirst ihSecond =>
    cases hm with
    | seq left right => exact ihFirst flat.1 left (ihSecond flat.2 right goes)
  | alt first second ihFirst ihSecond =>
    unfold run
    split
    · rfl
    · next missed =>
      cases hm with
      | altLeft left =>
        have found := ihFirst flat.1 left goes
        rw [missed] at found
        cases found
      | altRight right => exact ihSecond flat.2 right goes
  | many greedy b ih =>
    obtain ⟨accepts, rfl⟩ : ∃ accepts, b = .one accepts := by
      cases b with
      | one accepts => exact ⟨accepts, rfl⟩
      | _ => exact absurd flat (by simp)
    cases hm with
    | once round =>
      cases round with
      | @one _ _ _ c rest ha acc =>
        have further : (rounds (one accepts).run greedy next rest (start.step c rest)
          groups).isSome := rounds_isSome (.inl goes)
        simpa [run, ha, acc, step] using further
    | more round rest =>
      cases round with
      | one ha acc =>
        have further := rounds_isSome (.inr ⟨stop, final, rest, goes⟩)
        simpa [run, ha, acc, step] using further
  | capture i b ih =>
    cases hm with
    | capture inner => exact ih flat inner goes

end Flat

section Search

variable {r : Regex} {t : Text}

theorem matches_of_matchAt (hm : r.matchAt cur = some found) :
    found.start = cur ∧ Matches r cur [] found.stop found.groups := by
  obtain ⟨stop, final, matches', ends⟩ := exists_of_run r cur [] _ _ hm
  cases ends
  exact ⟨rfl, matches'⟩

theorem matchAt_of_matches (flat : r.IsFlat) (hm : Matches r cur [] stop final) :
    ∃ found, r.matchAt cur = some found :=
  Option.isSome_iff_exists.mp (run_isSome_of_matches flat hm rfl)

theorem matchAt_eq_none_of_not_matches (missed : ∀ stop final, ¬Matches r cur [] stop final) :
    r.matchAt cur = none := by
  cases found : r.matchAt cur with
  | none => rfl
  | some hm => exact absurd (matches_of_matchAt found).2 (missed _ _)

theorem findFrom_between : r.findFrom pre.length pre.reverse (c :: after) =
    (r.matchAt (between pre (c :: after))).or
      (r.findFrom (pre ++ [c]).length (pre ++ [c]).reverse after) := by
  simp [findFrom_cons, between]

variable {lead rest : Text}

theorem findFrom_passed (missed : ∀ passed ahead, lead = passed ++ ahead → ahead ≠ [] →
      r.matchAt (between (pre ++ passed) (ahead ++ rest)) = none) :
    r.findFrom pre.length pre.reverse (lead ++ rest) =
      r.findFrom (pre ++ lead).length (pre ++ lead).reverse rest := by
  induction lead generalizing pre with
  | nil => simp
  | cons c lead ih =>
    have here := missed [] (c :: lead) rfl (cons_ne_nil c lead)
    rw [append_nil, cons_append] at here
    have there := @ih (pre ++ [c]) fun passed ahead split ne => by
      simpa using missed (c :: passed) ahead (by rw [split]; rfl) ne
    rw [cons_append, findFrom_between, here, there, append_assoc]
    rfl

/-- No match starts in a text behind another one, nor at its end. -/
def Absent (r : Regex) (before t : Text) : Prop :=
  ∀ passed rest stop final, t = passed ++ rest →
    ¬Matches r (between (before ++ passed) rest) [] stop final

theorem Absent.matchAt (absent : r.Absent pre t) (passed rest : Text) (split : t = passed ++ rest) :
    r.matchAt (between (pre ++ passed) rest) = none :=
  matchAt_eq_none_of_not_matches fun stop final => absent passed rest stop final split

theorem findFrom_eq_none (absent : r.Absent pre t) :
    r.findFrom pre.length pre.reverse t = none := by
  have last := @findFrom_passed pre r t [] fun passed ahead split _ => by
    rw [append_nil]
    exact absent.matchAt passed ahead split
  rw [append_nil] at last
  rw [last]
  exact absent.matchAt t [] (append_nil t).symm

/-- No match starts at a character of a text that stands between two others. -/
def Misses (r : Regex) (before lead rest : Text) : Prop :=
  ∀ passed c ahead stop final, lead = passed ++ c :: ahead →
    ¬Matches r (between (before ++ passed) (c :: ahead ++ rest)) [] stop final

theorem Misses.matchAt (misses : r.Misses pre lead rest) (passed ahead : Text)
    (split : lead = passed ++ ahead) (ne : ahead ≠ []) :
    r.matchAt (between (pre ++ passed) (ahead ++ rest)) = none := by
  obtain ⟨c, ahead, rfl⟩ := exists_cons_of_ne_nil ne
  exact matchAt_eq_none_of_not_matches fun stop final => misses passed c ahead stop final split

theorem findFrom_of_first (here : r.matchAt (between (pre ++ lead) rest) = some found)
    (first : r.Misses pre lead rest) :
    r.findFrom pre.length pre.reverse (lead ++ rest) = some found := by
  rw [findFrom_passed first.matchAt]
  cases rest with
  | nil => exact here
  | cons c rest => rw [findFrom_between, here, Option.some_or]

theorem findFrom_isSome (flat : r.IsFlat)
    (hm : Matches r (between (pre ++ lead) rest) [] stop final) :
    (r.findFrom pre.length pre.reverse (lead ++ rest)).isSome := by
  induction lead generalizing pre with
  | nil =>
    obtain ⟨found, here⟩ := matchAt_of_matches flat hm
    rw [findFrom_of_first here (by simp [Misses])]
    rfl
  | cons c lead ih =>
    rw [append_cons] at hm
    rw [cons_append, findFrom_between, Option.isSome_or, ih hm, Bool.or_true]

theorem find?_eq_none (missed : ∀ pre after stop final, t = pre ++ after →
      ¬Matches r (between pre after) [] stop final) : r.find? t = none :=
  @findFrom_eq_none [] r t missed

theorem find?_of_first (here : r.matchAt (between lead rest) = some found)
    (first : r.Misses [] lead rest) : r.find? (lead ++ rest) = some found :=
  @findFrom_of_first [] found r lead rest here first

theorem isMatch_of_matches (flat : r.IsFlat) (hm : Matches r (between lead rest) [] stop final) :
    r.isMatch (lead ++ rest) :=
  @findFrom_isSome stop [] final r lead rest flat hm

end Search

section Spans

variable {holds : Text → Prop} {r rest : Regex} {pre t : Text} {groups final : Groups}
  {stop : Cursor}

/-- An expression reads the texts of some kind, captures nothing and looks at nothing around
them. -/
def Spans (holds : Text → Prop) (r : Regex) : Prop :=
  ∀ before t groups stop final, Matches r (between before t) groups stop final ↔
    ∃ read after, t = read ++ after ∧ holds read ∧ stop = between (before ++ read) after ∧
      final = groups

theorem Spans.seq (spans : Spans holds r) :
    Matches (.seq r rest) (between pre t) groups stop final ↔
      ∃ read after, t = read ++ after ∧ holds read ∧
        Matches rest (between (pre ++ read) after) groups stop final := by
  constructor
  · intro hm
    cases hm with
    | seq left right =>
      obtain ⟨read, after, rfl, held, rfl, rfl⟩ := (spans _ _ _ _ _).mp left
      exact ⟨read, after, rfl, held, right⟩
  · rintro ⟨read, after, rfl, held, right⟩
    exact .seq ((spans _ _ _ _ _).mpr ⟨read, after, rfl, held, rfl, rfl⟩) right

theorem Spans.captureSeq (spans : Spans holds r) {i : Nat} :
    Matches (.seq (.capture i r) rest) (between pre t) groups stop final ↔
      ∃ read after, t = read ++ after ∧ holds read ∧ Matches rest (between (pre ++ read) after)
          (⟨i, between pre t, between (pre ++ read) after⟩ :: groups) stop final := by
  constructor
  · intro hm
    cases hm with
    | seq left right =>
      cases left with
      | capture inner =>
        obtain ⟨read, after, rfl, held, rfl, rfl⟩ := (spans _ _ _ _ _).mp inner
        exact ⟨read, after, rfl, held, right⟩
  · rintro ⟨read, after, rfl, held, right⟩
    exact .seq (.capture ((spans _ _ _ _ _).mpr ⟨read, after, rfl, held, rfl, rfl⟩)) right

/-- An expression matches from the place between two texts on, whatever was captured before. -/
def MatchesFrom (r : Regex) (before t : Text) : Prop :=
  ∀ groups, ∃ stop final, Matches r (between before t) groups stop final

theorem Matches.regroup {start : Cursor} (hm : Matches r start groups stop final)
    (o : Groups) : ∃ final, Matches r start o stop final := by
  induction hm generalizing o with
  | empty => exact ⟨o, .empty⟩
  | one ha acc => exact ⟨o, .one ha acc⟩
  | assert met => exact ⟨o, .assert met⟩
  | seq _ _ ihLeft ihRight =>
    obtain ⟨between, left⟩ := ihLeft o
    exact (ihRight between).imp fun _ => left.seq
  | altLeft _ ih => exact (ih o).imp fun _ => .altLeft
  | altRight _ ih => exact (ih o).imp fun _ => .altRight
  | once _ ih => exact (ih o).imp fun _ => .once
  | more _ _ ihRound ihRest =>
    obtain ⟨between, round⟩ := ihRound o
    exact (ihRest between).imp fun _ => round.more
  | capture _ ih => exact (ih o).elim fun _ inner => ⟨_, inner.capture⟩

theorem Matches.matchesFrom (hm : Matches r (between pre t) groups stop final) :
    r.MatchesFrom pre t :=
  fun o => ⟨stop, hm.regroup o⟩

theorem isMatch_iff (flat : r.IsFlat) : r.isMatch t ↔
    ∃ pre after, t = pre ++ after ∧ r.MatchesFrom pre after := by
  constructor
  · intro found
    by_contra absent
    have missed : r.find? t = none := find?_eq_none fun pre after stop final whole hm =>
      absent ⟨pre, after, whole, hm.matchesFrom⟩
    rw [isMatch, missed] at found
    cases found
  · rintro ⟨pre, after, rfl, hm⟩
    obtain ⟨stop, final, hm⟩ := hm []
    exact isMatch_of_matches flat hm

theorem Spans.from_seq (spans : Spans holds r) : (Regex.seq r rest).MatchesFrom pre t ↔
    ∃ read after, t = read ++ after ∧ holds read ∧ rest.MatchesFrom (pre ++ read) after := by
  constructor
  · intro hm
    obtain ⟨stop, final, hm⟩ := hm []
    obtain ⟨read, after, whole, held, onward⟩ := spans.seq.mp hm
    exact ⟨read, after, whole, held, onward.matchesFrom⟩
  · rintro ⟨read, after, whole, held, onward⟩ groups
    obtain ⟨stop, final, hm⟩ := onward groups
    exact ⟨stop, final, spans.seq.mpr ⟨read, after, whole, held, hm⟩⟩

theorem from_captureSeq {i : Nat} :
    (seq (.capture i r) rest).MatchesFrom pre t ↔ (seq r rest).MatchesFrom pre t := by
  constructor
  · intro hm groups
    obtain ⟨stop, final, hm⟩ := hm groups
    cases hm with
    | seq left right =>
      cases left with
      | capture inner => exact ⟨stop, (right.regroup _).imp fun _ => inner.seq⟩
  · intro hm groups
    obtain ⟨stop, final, hm⟩ := hm groups
    cases hm with
    | seq left right => exact ⟨stop, (right.regroup _).imp fun _ => left.capture.seq⟩

theorem matches_assert_seq {cond : Cursor → Bool} :
    Matches (.seq (.assert cond) rest) cur groups stop final ↔
      cond cur ∧ Matches rest cur groups stop final := by
  constructor
  · intro hm
    cases hm with
    | seq left right =>
      cases left with
      | assert met => exact ⟨met, right⟩
  · rintro ⟨met, right⟩
    exact .seq (.assert met) right

theorem matches_edge_seq : Matches (.seq edge rest) (between pre t) groups stop final ↔
    (pre.getLast?.any Unicode.isWordChar != t.head?.any Unicode.isWordChar) ∧
      Matches rest (between pre t) groups stop final := by
  refine matches_assert_seq.trans (and_congr_left fun _ => ?_)
  rw [Cursor.atEdge_between]

theorem matches_empty : Matches .empty (between pre t) groups stop final ↔
    stop = between pre t ∧ final = groups := by
  constructor
  · intro hm
    cases hm
    exact ⟨rfl, rfl⟩
  · rintro ⟨rfl, rfl⟩
    exact .empty

theorem from_empty : empty.MatchesFrom pre t ↔ True :=
  iff_true_intro fun groups => ⟨_, groups, .empty⟩

theorem from_assert {cond : Cursor → Bool} :
    (seq (.assert cond) rest).MatchesFrom pre t ↔
      cond (between pre t) ∧ rest.MatchesFrom pre t := by
  simp only [MatchesFrom, matches_assert_seq, exists_and_left, forall_and, forall_const]

theorem from_front : (seq front rest).MatchesFrom pre t ↔ pre = [] ∧ rest.MatchesFrom pre t :=
  from_assert.trans (and_congr_left fun _ => by simp [between])

theorem from_back : (seq back rest).MatchesFrom pre t ↔ t = [] ∧ rest.MatchesFrom pre t :=
  from_assert.trans (and_congr_left fun _ => by simp [between])

theorem from_edge : (seq edge rest).MatchesFrom pre t ↔
    (pre.getLast?.any Unicode.isWordChar != t.head?.any Unicode.isWordChar) ∧
      rest.MatchesFrom pre t :=
  from_assert.trans (and_congr_left fun _ => by rw [Cursor.atEdge_between])

theorem spans_one (accepts : Char → Bool) :
    Spans (fun read => ∃ c, read = [c] ∧ accepts c) (.one accepts) := by
  intro pre t groups stop final
  constructor
  · intro hm
    cases hm with
    | @one _ _ _ c rest ha acc =>
      cases (show t = c :: rest from ha)
      exact ⟨[c], rest, rfl, ⟨c, rfl, acc⟩, Cursor.step_between pre c rest, rfl⟩
  · rintro ⟨-, after, rfl, ⟨c, rfl, acc⟩, rfl, rfl⟩
    rw [← Cursor.step_between]
    exact .one rfl acc

theorem spans_many (greedy : Bool) (accepts : Char → Bool) :
    Spans (fun read => read ≠ [] ∧ ∀ c ∈ read, accepts c) (.many greedy (.one accepts)) := by
  intro pre t groups stop final
  constructor
  · intro hm
    induction t generalizing pre with
    | nil =>
      cases hm with
      | once round | more round => cases round with | one ha => cases ha
    | cons c rest ih =>
      cases hm with
      | once round =>
        obtain ⟨-, after, whole, ⟨d, rfl, acc⟩, rfl, rfl⟩ := (spans_one accepts _ _ _ _ _).mp round
        exact ⟨[d], after, whole, by simpa using acc, rfl, rfl⟩
      | more round further =>
        obtain ⟨-, after, whole, ⟨d, rfl, acc⟩, rfl, rfl⟩ := (spans_one accepts _ _ _ _ _).mp round
        cases whole
        obtain ⟨read, after, rfl, ⟨-, all⟩, rfl, rfl⟩ := ih _ further
        exact ⟨c :: read, after, rfl, by simpa using ⟨acc, all⟩, by simp, rfl⟩
  · rintro ⟨read, after, rfl, ⟨ne, all⟩, rfl, rfl⟩
    induction read generalizing pre with
    | nil => exact absurd rfl ne
    | cons c read ih =>
      have round : Matches (.one accepts) (between pre (c :: read ++ after)) final
          (between (pre ++ [c]) (read ++ after)) final :=
        (spans_one accepts _ _ _ _ _).mpr
          ⟨[c], read ++ after, rfl, ⟨c, rfl, all c mem_cons_self⟩, rfl, rfl⟩
      cases read with
      | nil => exact .once round
      | cons d read =>
        have further := ih (pre ++ [c]) (by simp) (forall_mem_cons.mp all).2
        refine .more round ?_
        simpa using further

theorem spans_empty : Spans (· = []) .empty := by
  intro pre t groups stop final
  rw [matches_empty]
  constructor
  · rintro ⟨rfl, rfl⟩
    exact ⟨[], t, rfl, rfl, by rw [append_nil], rfl⟩
  · rintro ⟨-, after, rfl, rfl, rfl, rfl⟩
    exact ⟨by rw [append_nil]; rfl, rfl⟩

theorem Spans.alt {o : Text → Prop} {left right : Regex} (first : Spans holds left)
    (second : Spans o right) : Spans (fun read => holds read ∨ o read) (.alt left right) := by
  intro pre t groups stop final
  constructor
  · intro hm
    cases hm with
    | altLeft hm =>
      obtain ⟨read, after, whole, held, ends⟩ := (first _ _ _ _ _).mp hm
      exact ⟨read, after, whole, .inl held, ends⟩
    | altRight hm =>
      obtain ⟨read, after, whole, held, ends⟩ := (second _ _ _ _ _).mp hm
      exact ⟨read, after, whole, .inr held, ends⟩
  · rintro ⟨read, after, whole, held | held, ends⟩
    · exact .altLeft ((first _ _ _ _ _).mpr ⟨read, after, whole, held, ends⟩)
    · exact .altRight ((second _ _ _ _ _).mpr ⟨read, after, whole, held, ends⟩)

theorem Spans.congr {other : Text → Prop} (spans : Spans holds r)
    (eq : ∀ read, holds read ↔ other read) : Spans other r := by
  have equal : holds = other := funext fun read => propext (eq read)
  exact equal ▸ spans

theorem spans_star (accepts : Char → Bool) :
    Spans (fun read => ∀ c ∈ read, accepts c) (star (.one accepts)) := by
  refine ((spans_many true accepts).alt spans_empty).congr fun read => ?_
  cases read <;> simp

theorem spans_blanks : Spans (fun read => Text.isBlankText read) blanks :=
  (spans_star isBlank).congr fun _ => all_eq_true.symm

theorem spans_blanks1 : Spans (fun read => read ≠ [] ∧ Text.isBlankText read) blanks1 :=
  (spans_many true isBlank).congr fun _ => and_congr_right fun _ => all_eq_true.symm

theorem spans_starLazy (accepts : Char → Bool) :
    Spans (fun read => ∀ c ∈ read, accepts c) (starLazy (.one accepts)) := by
  refine (spans_empty.alt (spans_many false accepts)).congr fun read => ?_
  cases read <;> simp

theorem spans_char (c : Char) : Spans (· = [c]) (char c) := by
  refine (spans_one (· == c)).congr fun read => ?_
  simp

def isSpelling : Text → Text → Bool
  | [], [] => true
  | c :: word, d :: t => (caseVariants c).contains d && isSpelling word t
  | _, _ => false

theorem isSpelling_iff {word t : Text} : isSpelling word t ↔
    Forall₂ (fun c d => (caseVariants c).contains d) word t := by
  induction word generalizing t with
  | nil => cases t <;> simp [isSpelling]
  | cons c word ih => cases t <;> simp [isSpelling, ih]

theorem spans_chars (accepts : Char → Char → Bool) (word : Text) :
    Spans (Forall₂ (fun c d => accepts c d) word)
      (word.foldr (fun c rest => .seq (.one (accepts c)) rest) .empty) := by
  induction word with
  | nil => exact spans_empty.congr fun _ => forall₂_nil_left_iff.symm
  | cons c word ih =>
    intro pre t groups stop final
    rw [foldr_cons, (spans_one _).seq]
    constructor
    · rintro ⟨-, after, rfl, ⟨d, rfl, acc⟩, hm⟩
      obtain ⟨read, after, rfl, spelt, rfl, rfl⟩ := (ih _ _ _ _ _).mp hm
      exact ⟨d :: read, after, rfl, .cons acc spelt, by simp, rfl⟩
    · rintro ⟨_, after, rfl, ⟨⟩ | ⟨acc, spelt⟩, rfl, rfl⟩
      exact ⟨[_], _, rfl, ⟨_, rfl, acc⟩, (ih _ _ _ _ _).mpr ⟨_, after, rfl, spelt, by simp, rfl⟩⟩

theorem spans_text (t : Text) : Spans (· = t) (text t) := by
  refine (spans_chars (fun c d => d == c) t).congr fun read => ?_
  have eq : (fun c d : Char => (d == c) = true) = Eq := by
    ext
    exact beq_iff_eq.trans eq_comm
  rw [eq, forall₂_eq_eq_eq, eq_comm]

theorem spans_lit (s : String) : Spans (· = s.toList) (lit s) :=
  spans_text s.toList

theorem from_lit {s : String} : (seq (lit s) rest).MatchesFrom pre t ↔
    ∃ after, t = s.toList ++ after ∧ rest.MatchesFrom (pre ++ s.toList) after := by
  rw [(spans_lit s).from_seq]
  exact ⟨fun ⟨_, after, whole, eq, onward⟩ => ⟨after, eq ▸ whole, eq ▸ onward⟩,
    fun ⟨after, whole, onward⟩ => ⟨_, after, whole, rfl, onward⟩⟩

theorem spans_litAnyCase (s : String) :
    Spans (fun read => isSpelling s.toList read) (litAnyCase s) :=
  (spans_chars (fun c => (caseVariants c).contains) s.toList).congr fun _ => isSpelling_iff.symm

end Spans

section Greedy

variable {α : Type} {accepts : Char → Bool} {next : Continuation α}

theorem run_edge (ha : cur.atEdge Unicode.isWordChar) (rest : Regex) :
    (seq edge rest).run cur groups next = rest.run cur groups next :=
  if_pos ha

theorem run_one_between : (one accepts).run (between pre (c :: after)) groups next =
    if accepts c then next (between (pre ++ [c]) after) groups else none := by
  rw [← Cursor.step_between]
  rfl

theorem index_lt (ne : read ≠ []) {tl : Text} :
    (between pre after).index < (between (pre ++ read) tl).index := by
  have longer := length_pos_of_ne_nil ne
  simp only [between, length_append]
  omega

/-- Greedy rounds stop behind the last character they can take, where what comes next succeeds
there. -/
theorem rounds_of_longest {t : Text} {result : α}
    (goes : next (between (pre ++ t.takeWhile accepts) (t.dropWhile accepts)) groups =
      some result) :
    rounds (one accepts).run true next t (between pre t) groups = some result := by
  induction t generalizing pre with
  | nil => simpa [rounds] using goes
  | cons c rest ih =>
    have longer := @index_lt [c] pre (c :: rest) (by simp) rest
    unfold rounds
    rw [if_pos rfl, run_one_between]
    by_cases acc : accepts c
    · rw [takeWhile_cons_of_pos acc, dropWhile_cons_of_pos acc, append_cons] at goes
      rw [if_pos acc, if_pos longer, ih goes]
    · rw [takeWhile_cons_of_neg acc, dropWhile_cons_of_neg acc, append_nil] at goes
      rw [if_neg acc, goes]

/-- Greedy rounds take all the characters they can where whatever comes next succeeds. -/
theorem rounds_of_total (total : ∀ cur groups, (next cur groups).isSome) {t : Text} :
    rounds (one accepts).run true next t (between pre t) groups =
      next (between (pre ++ t.takeWhile accepts) (t.dropWhile accepts)) groups := by
  obtain ⟨result, ends⟩ := Option.isSome_iff_exists.mp
    (total (between (pre ++ t.takeWhile accepts) (t.dropWhile accepts)) groups)
  rw [ends, rounds_of_longest ends]

theorem span_append (all : ∀ c ∈ read, accepts c) (stops : after.head?.any accepts = false) :
    (read ++ after).takeWhile accepts = read ∧ (read ++ after).dropWhile accepts = after := by
  rw [takeWhile_append_of_pos all, dropWhile_append_of_pos all]
  cases after with
  | nil => exact ⟨append_nil read, rfl⟩
  | cons d after =>
    have ho : ¬accepts d := by simpa using stops
    exact ⟨by rw [takeWhile_cons_of_neg ho, append_nil], dropWhile_cons_of_neg ho⟩

theorem run_many_between (greedy : Bool) :
    (many greedy (.one accepts)).run (between pre (c :: after)) groups next =
      if accepts c then
        rounds (one accepts).run greedy next after (between (pre ++ [c]) after) groups
      else none := by
  rw [run.eq_6, run_one_between, if_pos (index_lt (cons_ne_nil c []))]
  rfl

variable {result : α} (ne : read ≠ []) (all : ∀ c ∈ read, accepts c)
  (stops : after.head?.any accepts = false)
  (goes : next (between (pre ++ read) after) groups = some result)

include ne all stops goes in
theorem run_plus_of_longest :
    (plus (.one accepts)).run (between pre (read ++ after)) groups next = some result := by
  obtain ⟨c, read, rfl⟩ := exists_cons_of_ne_nil ne
  obtain ⟨taken, left⟩ := span_append ((forall_mem_cons.mp all).2) stops
  rw [plus, cons_append, run_many_between, if_pos (all c mem_cons_self)]
  refine rounds_of_longest ?_
  rw [taken, left, append_assoc]
  exact goes

include all goes in
/-- Lazy rounds stop in front of the first character that they have to leave, where what comes next
succeeds. -/
theorem rounds_of_shortest (misses : ∀ passed c a, read = passed ++ c :: a →
      next (between (pre ++ passed) (c :: a ++ after)) groups = none) :
    rounds (one accepts).run false next (read ++ after) (between pre (read ++ after))
      groups = some result := by
  induction read generalizing pre with
  | nil =>
    rw [append_nil] at goes
    cases after with
    | nil => simpa [rounds] using goes
    | cons c after =>
      rw [nil_append]
      unfold rounds
      rw [if_neg (by decide), goes]
  | cons c read ih =>
    have longer := @index_lt [c] pre (c :: (read ++ after)) (by simp) (read ++ after)
    have here := misses [] c read rfl
    rw [append_nil, cons_append] at here
    have later := @ih (pre ++ [c]) ((forall_mem_cons.mp all).2) (by rw [append_assoc]; exact goes)
      fun passed d a whole => by
        rw [append_assoc]
        exact misses (c :: passed) d a (by rw [whole]; rfl)
    rw [cons_append]
    unfold rounds
    rw [if_neg (by decide), here]
    rw [run_one_between, if_pos (all c mem_cons_self), if_pos longer, later]

include ne all goes in
theorem run_plusLazy_of_shortest (misses : ∀ passed c a, passed ≠ [] → read = passed ++ c :: a →
      next (between (pre ++ passed) (c :: a ++ after)) groups = none) :
    (plusLazy (.one accepts)).run (between pre (read ++ after)) groups next = some result := by
  obtain ⟨c, read, rfl⟩ := exists_cons_of_ne_nil ne
  rw [plusLazy, cons_append, run_many_between, if_pos (all c mem_cons_self)]
  refine rounds_of_shortest ((forall_mem_cons.mp all).2) ?_ ?_
  · rw [append_assoc]
    exact goes
  · intro passed d a whole
    rw [append_assoc]
    exact misses (c :: passed) d a (by simp) (by rw [whole]; rfl)

theorem run_lit (s : String) : (lit s).run (between pre (s.toList ++ after)) groups next =
      next (between (pre ++ s.toList) after) groups := by
  have ha : Text.dropLead? (between pre (s.toList ++ after)).after s.toList = some after :=
    Text.dropLead?_eq_some_iff.mpr rfl
  rw [lit, run_text, ha]
  simp [between]

theorem run_star_eq_rounds {t : Text} : (star (.one accepts)).run (between pre t) groups next =
      rounds (one accepts).run true next t (between pre t) groups := by
  unfold star plus
  rw [run.eq_5, run.eq_1]
  cases t with
  | nil => rfl
  | cons c rest =>
    rw [run_many_between, rounds, if_pos rfl, run_one_between, if_pos (index_lt (cons_ne_nil c []))]

include all stops goes in
theorem run_star_of_longest :
    (star (.one accepts)).run (between pre (read ++ after)) groups next = some result := by
  obtain ⟨taken, left⟩ := span_append all stops
  rw [run_star_eq_rounds]
  refine rounds_of_longest ?_
  rw [taken, left]
  exact goes

theorem run_letters {word found : Text} (spelt : isSpelling word found) :
    (word.foldr (fun c rest => seq (.one (caseVariants c).contains) rest) .empty).run
      (between pre (found ++ after)) groups next = next (between (pre ++ found) after) groups := by
  rw [isSpelling_iff] at spelt
  induction spelt generalizing pre with
  | nil => simp [run]
  | cons variant _ ih =>
    rw [foldr_cons, run, cons_append, run_one_between, if_pos variant, ih, append_assoc,
      singleton_append]

theorem run_opt_char (total : ∀ cur groups, (next cur groups).isSome)
    {mark tail : Text} (marks : mark = [c] ∨ mark = [] ∧ tail.head? ≠ some c) :
    (opt (char c)).run (between pre (mark ++ tail)) groups next =
      next (between (pre ++ mark) tail) groups := by
  unfold opt char
  rw [run.eq_5]
  rcases marks with rfl | ⟨rfl, o⟩
  · rw [singleton_append, run_one_between, if_pos (beq_self_eq_true c)]
    obtain ⟨result, ends⟩ := Option.isSome_iff_exists.mp (total (between (pre ++ [c]) tail) groups)
    rw [ends]
  · rw [nil_append, append_nil]
    cases tail with
    | nil => rfl
    | cons d tail =>
      have ha : (d == c) = false := by simpa using o
      rw [run_one_between, ha]
      rfl

theorem run_blanks_opt {rest : Regex}
    (total : ∀ cur groups, (rest.run cur groups next).isSome) {gap mark tail : Text}
    (hb : ∀ d ∈ gap, isBlank d) (hs : (mark ++ tail).head?.any isBlank = false)
    (marks : mark = [c] ∨ mark = [] ∧ tail.head? ≠ some c) :
    (seq blanks (.seq (opt (char c)) rest)).run (between pre (gap ++ (mark ++ tail)))
      groups next = rest.run (between (pre ++ gap ++ mark) tail) groups next := by
  obtain ⟨taken, left⟩ := span_append hb hs
  have goes (cur : Cursor) (groups : Groups) :
      ((seq (opt (char c)) rest).run cur groups next).isSome := by
    unfold opt
    rw [run.eq_4, run.eq_5]
    split
    · rfl
    · exact total cur groups
  have greedy : (seq blanks (.seq (opt (char c)) rest)).run
      (between pre (gap ++ (mark ++ tail))) groups next = _ :=
    run_star_eq_rounds.trans (rounds_of_total goes)
  rw [taken, left] at greedy
  calc (seq blanks (.seq (opt (char c)) rest)).run (between pre (gap ++ (mark ++ tail)))
        groups next
      = (seq (opt (char c)) rest).run (between (pre ++ gap) (mark ++ tail)) groups next :=
        greedy
    _ = rest.run (between (pre ++ gap ++ mark) tail) groups next :=
        run_opt_char total marks

end Greedy

section Sole

variable {r : Regex} {fresh : Bool} {lead rest t : Text}

theorem piecesAt_gap (fresh : Bool)
    (missed : r.matchAt (between pre (c :: rest)) = none) :
    r.piecesAt fresh (between pre (c :: rest)) =
      .gap c :: r.piecesAt true (between (pre ++ [c]) rest) := by
  have absent : r.matchAt ⟨pre.length, pre.reverse, c :: rest⟩ = none := missed
  have place : (⟨pre.length + 1, c :: pre.reverse, rest⟩ : Cursor) = between (pre ++ [c]) rest := by
    simp [between]
  rw [← place]
  unfold piecesAt between
  rw [piecesFrom, matchAt_of_admits, absent]

theorem piecesAt_hit {tail : Text} (fresh : Bool) (ne : read ≠ [])
    (here : r.matchAt (between pre (read ++ tail)) = some found)
    (stops : found.stop = between (pre ++ read) tail) :
    r.piecesAt fresh (between pre (read ++ tail)) =
      .hit found :: r.piecesAt false (between (pre ++ read) tail) := by
  have hi : (between pre (read ++ tail)).IsIn (pre ++ (read ++ tail)) := by
    simp [between, Cursor.IsIn]
  obtain ⟨isIn, start⟩ := isIn_of_matchAt hi here
  have reads : 0 < found.length := by
    rw [Match.length, start, stops]
    simpa [between] using length_pos_iff.mpr ne
  obtain ⟨c, read, rfl⟩ := exists_cons_of_ne_nil ne
  rw [← stops, ← piecesFrom_stop isIn start reads]
  have first : r.matchAt ⟨pre.length, pre.reverse, c :: (read ++ tail)⟩ = some found := here
  unfold piecesAt between
  rw [cons_append, piecesFrom, matchAt_of_admits, first]
  dsimp only
  rw [if_neg (Nat.ne_of_gt reads)]
  rfl

theorem piecesAt_passed (ne : lead ≠ []) (missed : ∀ passed ahead, lead = passed ++ ahead →
      ahead ≠ [] → r.matchAt (between (pre ++ passed) (ahead ++ rest)) = none) :
    r.piecesAt fresh (between pre (lead ++ rest)) =
      lead.map .gap ++ r.piecesAt true (between (pre ++ lead) rest) := by
  induction lead generalizing pre fresh with
  | nil => exact absurd rfl ne
  | cons c lead ih =>
    have here := missed [] (c :: lead) rfl ne
    rw [append_nil, cons_append] at here
    rw [cons_append, piecesAt_gap fresh here]
    cases lead with
    | nil => simp
    | cons d lead =>
      rw [ih (cons_ne_nil d lead) fun passed ahead split ne => by
        simpa using missed (c :: passed) ahead (by rw [split]; rfl) ne]
      simp

theorem piecesAt_append (missed : r.Misses pre lead rest) :
    r.piecesAt true (between pre (lead ++ rest)) =
      lead.map .gap ++ r.piecesAt true (between (pre ++ lead) rest) := by
  cases lead with
  | nil => rw [append_nil]; rfl
  | cons c lead => exact piecesAt_passed (cons_ne_nil c lead) missed.matchAt

theorem piecesAt_nil (missed : r.matchAt (between pre []) = none) :
    r.piecesAt fresh (between pre []) = [] := by
  have missed : r.matchAt ⟨pre.length, pre.reverse, []⟩ = none := missed
  unfold piecesAt between
  rw [piecesFrom, missed]
  split <;> rfl

theorem piecesAt_eq_map_gap (absent : r.Absent pre t) :
    r.piecesAt fresh (between pre t) = t.map .gap := by
  have last {fresh : Bool} :=
    @piecesAt_nil (pre ++ t) r fresh (absent.matchAt t [] (append_nil t).symm)
  cases t with
  | nil => simpa using @last fresh
  | cons c rest =>
    have gaps := @piecesAt_passed pre r fresh (c :: rest) [] (cons_ne_nil c rest)
      fun passed ahead split _ => by
        rw [append_nil]
        exact absent.matchAt passed ahead split
    rwa [append_nil, last, append_nil] at gaps

theorem replaceAll_of_only {tail : Text} (ne : read ≠ [])
    (here : r.matchAt (between lead (read ++ tail)) = some found)
    (stops : found.stop = between (lead ++ read) tail) (first : r.Misses [] lead (read ++ tail))
    (last : r.Absent (lead ++ read) tail) (image : Match → Text) :
    r.replaceAll (lead ++ (read ++ tail)) image = lead ++ (image found ++ tail) := by
  have whole : r.pieces (lead ++ (read ++ tail)) = lead.map .gap ++
      .hit found :: tail.map .gap := by
    have hu : r.pieces (lead ++ (read ++ tail)) =
        r.piecesAt true (between [] (lead ++ (read ++ tail))) := rfl
    rw [hu, piecesAt_append first, nil_append, piecesAt_hit true ne here stops,
      piecesAt_eq_map_gap last]
  rw [replaceAll_eq_assemble, whole, assemble_append, assemble_map_gap, assemble, assemble_map_gap]

end Sole

section Words

open Unicode (isWordChar)

variable {word found pre after t : Text} {rest : Regex} {groups final : Groups} {stop : Cursor}

theorem length_of_isSpelling (spelt : isSpelling word found) : found.length = word.length :=
  (isSpelling_iff.mp spelt).length_eq.symm

def IsLettered (word : Text) : Prop :=
  word.isEmpty = false ∧ (word.all fun c => (caseVariants c).all isWordChar) = true

instance decidableIsLettered (word : Text) : Decidable (IsLettered word) :=
  inferInstanceAs (Decidable (_ ∧ _))

section

variable (lettered : IsLettered word) (spelt : isSpelling word found)

include lettered spelt

theorem IsLettered.forall_isWordChar : ∀ d ∈ found, isWordChar d := by
  obtain ⟨-, letters⟩ := lettered
  rw [isSpelling_iff] at spelt
  induction spelt with
  | nil => simp
  | cons variant _ ih =>
    rw [all_cons, Bool.and_eq_true, all_eq_true] at letters
    exact forall_mem_cons.mpr ⟨letters.1 _ (contains_iff_mem.mp variant), ih letters.2⟩

theorem IsLettered.ne_nil : found ≠ [] := by
  have long := length_of_isSpelling spelt
  rintro rfl
  cases length_eq_zero_iff.mp long.symm
  cases lettered.1

theorem IsLettered.head? (after : Text) : (found ++ after).head?.any isWordChar :=
  Text.any_head?_of_forall (lettered.ne_nil spelt) (lettered.forall_isWordChar spelt) after

theorem IsLettered.getLast? (pre : Text) : (pre ++ found).getLast?.any isWordChar :=
  Text.any_getLast?_of_forall (lettered.ne_nil spelt) (lettered.forall_isWordChar spelt) pre

theorem matches_edge_behind :
    Matches (.seq edge rest) (between (pre ++ found) t) groups stop final ↔
      t.head?.any isWordChar = false ∧
        Matches rest (between (pre ++ found) t) groups stop final := by
  rw [matches_edge_seq, lettered.getLast? spelt]
  simp

theorem from_edge_behind :
    (seq edge rest).MatchesFrom (pre ++ found) t ↔
      t.head?.any isWordChar = false ∧ rest.MatchesFrom (pre ++ found) t := by
  rw [from_edge, lettered.getLast? spelt]
  simp

end

/-- Whether a word stands in a text, in any case and with no word character on either side. -/
def hasWord (word t : Text) : Bool :=
  (range (t.length + 1)).any fun start =>
    isSpelling word ((t.drop start).take word.length) && !(t.take start).getLast?.any isWordChar &&
      !(t.drop (start + word.length)).head?.any isWordChar

theorem hasWord_iff : hasWord word t ↔ ∃ pre found after, t = pre ++ (found ++ after) ∧
    isSpelling word found ∧ pre.getLast?.any isWordChar = false ∧
    after.head?.any isWordChar = false := by
  simp only [hasWord, any_eq_true, Bool.and_eq_true, Bool.not_eq_true']
  constructor
  · rintro ⟨start, -, ⟨spelt, left⟩, right⟩
    refine ⟨t.take start, (t.drop start).take word.length, t.drop (start + word.length), ?_,
      spelt, left, right⟩
    rw [← drop_drop, take_append_drop, take_append_drop]
  · rintro ⟨pre, found, after, rfl, spelt, left, right⟩
    have long := length_of_isSpelling spelt
    have within : pre.length < (pre ++ (found ++ after)).length + 1 := by
      rw [length_append]
      omega
    refine ⟨pre.length, mem_range.mpr within, ⟨?_, ?_⟩, ?_⟩
    · rw [drop_left, ← long, take_left, spelt]
    · rw [take_left, left]
    · rw [← drop_drop, drop_left, ← long, drop_left, right]

section

variable {s : String} (lettered : IsLettered s.toList)

include lettered

theorem edge_word_iff {p : Text → Text → Prop} :
    (pre.getLast?.any isWordChar != t.head?.any isWordChar) ∧
      (∃ found after, t = found ++ after ∧ isSpelling s.toList found ∧ p found after) ↔
    ∃ found after, t = found ++ after ∧ isSpelling s.toList found ∧
      pre.getLast?.any isWordChar = false ∧ p found after := by
  constructor
  · rintro ⟨ha, found, after, rfl, spelt, rest⟩
    rw [lettered.head? spelt] at ha
    exact ⟨found, after, rfl, spelt, by simpa using ha, rest⟩
  · rintro ⟨found, after, rfl, spelt, ha, rest⟩
    rw [lettered.head? spelt, ha]
    exact ⟨rfl, found, after, rfl, spelt, rest⟩

theorem matches_edge_word :
    Matches (.seq edge (.seq (litAnyCase s) rest)) (between pre t) groups stop final ↔
      ∃ found after, t = found ++ after ∧ isSpelling s.toList found ∧
        pre.getLast?.any isWordChar = false ∧
        Matches rest (between (pre ++ found) after) groups stop final := by
  rw [matches_edge_seq, (spans_litAnyCase s).seq, edge_word_iff lettered]

theorem from_edge_word :
    (seq edge (.seq (litAnyCase s) rest)).MatchesFrom pre t ↔
      ∃ found after, t = found ++ after ∧ isSpelling s.toList found ∧
        pre.getLast?.any isWordChar = false ∧ rest.MatchesFrom (pre ++ found) after := by
  rw [from_edge, (spans_litAnyCase s).from_seq, edge_word_iff lettered]

end

end Words

end Regex

end PrimePlus
