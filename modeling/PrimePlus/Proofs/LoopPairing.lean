import PrimePlus.Construct.Loop
import PrimePlus.Proofs.FlatMatches
import PrimePlus.Proofs.TextLines

/-!
Which loop a `next` closes. The list of open loops follows the stack of open blocks (`Tracks`).
-/

namespace PrimePlus

open List
open Text

namespace Text

theorem append_sep_inj {sep : Char} {left right rest rest' : Text} (absent : sep ∉ left)
    (absent' : sep ∉ right) (eq : left ++ sep :: rest = right ++ sep :: rest') :
    left = right ∧ rest = rest' := by
  have cut {lead : Text} (free : sep ∉ lead) (tail : Text) :
      (lead ++ sep :: tail).takeWhile (· != sep) = lead ∧
        (lead ++ sep :: tail).dropWhile (· != sep) = sep :: tail :=
    Regex.span_append (fun c mem => bne_iff_ne.mpr (ne_of_mem_of_not_mem mem free)) (by simp)
  have behind := (cut absent rest).2.symm.trans (eq ▸ (cut absent' rest').2)
  exact ⟨(cut absent rest).1.symm.trans (eq ▸ (cut absent' rest').1), (cons.inj behind).2⟩

def behindSemicolon (t : Text) : Text :=
  (t.dropWhile (· != ';')).tail

theorem exists_behindSemicolon (u rest : Text) :
    ∃ more, behindSemicolon (u ++ ';' :: rest) = more ++ rest ∧
      (more = [] ∨ more.getLast? = some ';') := by
  induction u with
  | nil => exact ⟨[], rfl, .inl rfl⟩
  | cons c u ih =>
    by_cases o : (c != ';')
    · unfold behindSemicolon at ih ⊢
      rwa [cons_append, dropWhile_cons, if_pos o]
    · refine ⟨u ++ [';'], ?_, .inr getLast?_concat⟩
      rw [behindSemicolon, cons_append, dropWhile_cons, if_neg o, tail_cons,
        append_assoc, singleton_append]

end Text

namespace Construct

open Regex
open Cursor (between)
open Unicode (isBlank isWordChar)

variable {c : Char}

section Patterns

variable {pre t : Text} {stop : Cursor} {gs final : Groups}

theorem isFlat_steppedPattern : steppedPattern.IsFlat := by
  simp [steppedPattern, Regex.all, edge, blanks1, blanks, blank, Regex.star,
    plus, starLazy, plusLazy, noneOf, char, isFlat_litAnyCase]

theorem isFlat_countingPattern : countingPattern.IsFlat := by
  simp [countingPattern, Regex.all, edge, blanks1, blank, plus, wordChar, isFlat_litAnyCase]

theorem isLettered_for : IsLettered "for".toList := by decide

theorem isLettered_do : IsLettered "do".toList := by decide

theorem isLettered_from : IsLettered "from".toList := by decide

theorem isLettered_next : IsLettered "next".toList := by decide

theorem semicolon_notMem {blank : Text} (blanks : ∀ c ∈ blank, isBlank c) : ';' ∉ blank := by
  intro mem
  cases (show isBlank ';' = false by decide).symm.trans (blanks ';' mem)

theorem getLast?_any_of_append {accepts : Char → Bool} {u t : Text}
    (last : (u ++ t).getLast?.any accepts = false) : t.getLast?.any accepts = false := by
  rw [getLast?_append] at last
  cases hs : t.getLast? with
  | none => rfl
  | some c => rwa [hs] at last

structure SteppedParts (before t : Text) (found : Match) (word start condition step closer : Text) :
    Prop where
  whole : t = word ++ (start ++ ';' :: (condition ++ ';' :: (step ++ (closer ++ found.tail))))
  spelt : isSpelling "for".toList word = true
  apart : before.getLast?.any isWordChar = false
  spaced : start.head?.any isWordChar = false
  start_clear : ';' ∉ start
  condition_clear : ';' ∉ condition
  closes : isSpelling "do".toList closer = true
  step_apart : step.getLast?.any isWordChar = false
  ended : found.tail.head?.any isWordChar = false
  start_eq : trim (found.group 1) = trim start
  condition_eq : trim (found.group 2) = trim condition
  step_eq : trim (found.group 3) = trim step

theorem steppedParts_of_matches {hit : Match}
    (hm : Matches steppedPattern (between pre t) [] hit.stop hit.groups) :
    ∃ w start condition step closer, SteppedParts pre t hit w start condition step closer := by
  obtain ⟨w, t, rfl, spelt, apart, hm⟩ := (matches_edge_word isLettered_for).mp hm
  obtain ⟨gap, t, rfl, ⟨gapped, gap_blank⟩, hm⟩ := (spans_many true isBlank).seq.mp hm
  obtain ⟨start, t, rfl, start_clear, hm⟩ := (spans_starLazy _).captureSeq.mp hm
  obtain ⟨gap₁, t, rfl, blank₁, hm⟩ := (spans_star isBlank).seq.mp hm
  obtain ⟨_, t, rfl, rfl, hm⟩ := (spans_char ';').seq.mp hm
  obtain ⟨gap₂, t, rfl, blank₂, hm⟩ := (spans_star isBlank).seq.mp hm
  obtain ⟨condition, t, rfl, ⟨filled, condition_clear⟩, hm⟩ := (spans_many false _).captureSeq.mp hm
  obtain ⟨gap₃, t, rfl, blank₃, hm⟩ := (spans_star isBlank).seq.mp hm
  obtain ⟨_, t, rfl, rfl, hm⟩ := (spans_char ';').seq.mp hm
  obtain ⟨gap₄, t, rfl, blank₄, hm⟩ := (spans_star isBlank).seq.mp hm
  obtain ⟨step, t, rfl, step_clear, hm⟩ := (spans_starLazy _).captureSeq.mp hm
  obtain ⟨gap₅, t, rfl, blank₅, hm⟩ := (spans_star isBlank).seq.mp hm
  obtain ⟨closer, t, rfl, closes, step_apart, hm⟩ := (matches_edge_word isLettered_do).mp hm
  obtain ⟨ended, hm⟩ := (matches_edge_behind isLettered_do closes).mp hm
  obtain ⟨stop, gs⟩ := matches_empty.mp hm
  have tail : hit.tail = t := by
    rw [Match.tail, stop]
    rfl
  have clear {read : Text} (missed : ∀ c ∈ read, (!";".toList.contains c)) : ';' ∉ read :=
    fun mem => by simpa using missed ';' mem
  have groups : hit.group 1 = start ∧ hit.group 2 = condition ∧ hit.group 3 = step := by
    simp only [Match.group, Match.group?, gs]
    exact ⟨Cursor.spanTo_between .., Cursor.spanTo_between .., Cursor.spanTo_between ..⟩
  refine ⟨w, gap ++ (start ++ gap₁), gap₂ ++ (condition ++ gap₃), gap₄ ++ (step ++ gap₅), closer,
    ?_⟩
  constructor
  · simp [tail]
  · exact spelt
  · exact apart
  · obtain ⟨c, gap, rfl⟩ := exists_cons_of_ne_nil gapped
    exact Unicode.not_isWordChar_of_isBlank (gap_blank c (mem_cons_self ..))
  · simp [semicolon_notMem gap_blank, semicolon_notMem blank₁, clear start_clear]
  · simp [semicolon_notMem blank₂, semicolon_notMem blank₃, clear condition_clear]
  · exact closes
  · rw [append_assoc, append_assoc] at step_apart
    exact getLast?_any_of_append step_apart
  · exact tail ▸ ended
  · rw [groups.1, trim_append (all_eq_true.mpr gap_blank) (all_eq_true.mpr blank₁)]
  · rw [groups.2.1, trim_append (all_eq_true.mpr blank₂) (all_eq_true.mpr blank₃)]
  · rw [groups.2.2, trim_append (all_eq_true.mpr blank₄) (all_eq_true.mpr blank₅)]

theorem SteppedParts.hasWord_behind {hit : Match} {w start cond step closer : Text}
    (parts : SteppedParts pre t hit w start cond step closer) :
    hasWord "do".toList (behindSemicolon (behindSemicolon (pre ++ t))) := by
  obtain ⟨more, first, -⟩ := exists_behindSemicolon (pre ++ (w ++ start))
    (cond ++ ';' :: (step ++ (closer ++ hit.tail)))
  obtain ⟨more', second, left⟩ :=
    exists_behindSemicolon (more ++ cond) (step ++ (closer ++ hit.tail))
  have split : pre ++ t = pre ++ (w ++ start) ++
      ';' :: (cond ++ ';' :: (step ++ (closer ++ hit.tail))) := by
    rw [parts.whole]
    simp only [append_assoc]
  have ha : (more' ++ step).getLast?.any isWordChar = false := by
    rw [getLast?_append]
    have last := parts.step_apart
    cases hs : step.getLast? with
    | some c => rwa [hs] at last
    | none =>
      rcases left with rfl | mark
      · rfl
      · rw [mark]
        decide
  rw [split, first, ← append_assoc, second]
  exact hasWord_iff.mpr ⟨more' ++ step, closer, hit.tail, (append_assoc ..).symm,
    parts.closes, ha, parts.ended⟩

theorem eq_nil_of_apart {w u left right : Text} (lettered : IsLettered w)
    (spelt : isSpelling w (left ++ right))
    (ha : (u ++ left).getLast?.any isWordChar = false) : left = [] :=
  eq_nil_of_any_getLast?
    (fun c mem => lettered.forall_isWordChar spelt c (mem_append_left right mem)) ha

theorem hasWord_of_begins {w hit lead passed ahead rest after : Text}
    (lettered : IsLettered w) (hi : lead = passed ++ c :: ahead)
    (lead_apart : lead.getLast?.any isWordChar = false)
    (whole : c :: ahead ++ rest = hit ++ after) (spelt : isSpelling w hit)
    (ha : passed.getLast?.any isWordChar = false) (ended : after.head?.any isWordChar = false) :
    hasWord w lead := by
  rcases append_eq_append_iff.mp whole with ⟨x, rfl, -⟩ | ⟨x, split, ends⟩
  · rw [hi] at lead_apart
    cases eq_nil_of_apart lettered spelt lead_apart
  · have right : x.head?.any isWordChar = false := by
      cases x with
      | nil => rfl
      | cons d x => rwa [ends] at ended
    exact hasWord_iff.mpr ⟨passed, hit, x, hi.trans (by rw [split]), spelt, ha, right⟩

theorem eq_of_closers {step step' closer closer' tail tail' : Text}
    (eq : step' ++ (closer' ++ tail') = step ++ (closer ++ tail))
    (closes : isSpelling "do".toList closer)
    (closes' : isSpelling "do".toList closer') (ha : step.getLast?.any isWordChar = false)
    (apart' : step'.getLast?.any isWordChar = false) (ended' : tail'.head?.any isWordChar = false)
    (hp : hasWord "do".toList step = false) (plain' : hasWord "do".toList tail = false) :
    step' = step ∧ tail' = tail := by
  have lengths : closer'.length = closer.length :=
    (length_of_isSpelling closes').trans (length_of_isSpelling closes).symm
  rcases append_eq_append_iff.mp eq with ⟨x, rfl, rest⟩ | ⟨x, rfl, rest⟩
  · rcases append_eq_append_iff.mp rest with ⟨y, rfl, ends⟩ | ⟨y, rfl, ends⟩
    · -- the word would stand in the step
      have right : y.head?.any isWordChar = false := by
        cases y with
        | nil =>
          rw [ends, nil_append, isLettered_do.head? closes] at ended'
          cases ended'
        | cons c y => rwa [ends] at ended'
      have there := hasWord_iff.mpr ⟨step', closer', y, rfl, closes', apart', right⟩
      rw [hp] at there
      cases there
    · cases eq_nil_of_apart isLettered_do closes' ha
      rw [nil_append (closer ++ tail)] at rest
      exact ⟨(append_nil step').symm, (append_inj rest lengths).2⟩
  · rcases append_eq_append_iff.mp rest with ⟨y, rfl, ends⟩ | ⟨y, rfl, ends⟩
    · -- the word would stand behind the header
      rw [← append_assoc] at apart'
      have there := hasWord_iff.mpr
        ⟨y, closer', tail', ends, closes', getLast?_any_of_append apart', ended'⟩
      rw [plain'] at there
      cases there
    · cases eq_nil_of_apart isLettered_do closes apart'
      rw [nil_append (closer' ++ tail')] at rest
      exact ⟨append_nil step, (append_inj rest.symm lengths).2⟩

theorem hasWord_of_isBlankText {w t : Text} (lettered : IsLettered w)
    (hb : isBlankText t) : hasWord w t = false := by
  by_contra there
  obtain ⟨pre, hit, after, rfl, spelt, -⟩ := hasWord_iff.mp (eq_true_of_ne_false there)
  obtain ⟨c, more, rfl⟩ := exists_cons_of_ne_nil (lettered.ne_nil spelt)
  have letter := lettered.forall_isWordChar spelt c (mem_cons_self ..)
  have among := all_eq_true.mp hb c (by simp)
  cases (Unicode.not_isBlank_of_isWordChar letter).symm.trans among

end Patterns

section Lines

/-- A header `for start; condition; step do` that is alone on its line. -/
structure SteppedHeader where
  lead : Text
  word : Text
  gap : Text
  start : Text
  condition : Text
  step : Text
  closer : Text
  tail : Text
  lead_blank : isBlankText lead = true := by decide
  spelt : isSpelling "for".toList word = true := by decide
  gapped : gap ≠ [] := by decide
  gap_blank : isBlankText gap = true := by decide
  start_clear : ';' ∉ start := by decide
  condition_filled : condition ≠ [] := by decide
  condition_clear : ';' ∉ condition := by decide
  step_clear : ';' ∉ step := by decide
  step_apart : step.getLast?.any isWordChar = false := by decide
  step_plain : hasWord "do".toList step = false := by decide
  closes : isSpelling "do".toList closer = true := by decide
  tail_blank : isBlankText tail = true := by decide

namespace SteppedHeader

variable (header : SteppedHeader)

def rest : Text :=
  header.gap ++ (header.start ++ ';' :: (header.condition ++ ';' ::
    (header.step ++ (header.closer ++ header.tail))))

def text : Text :=
  header.lead ++ (header.word ++ header.rest)

/-- What comes behind the first word where something else than blanks may follow the header. -/
def ahead (tail : Text) : Text :=
  header.gap ++ (header.start ++ ';' :: (header.condition ++ ';' ::
    (header.step ++ (header.closer ++ tail))))

def lowered : Text :=
  header.lead ++ whileHeader (trim header.start) (trim header.condition) ++ header.tail

def step? : Option Text :=
  if (trim header.step).isEmpty then none else some (trim header.step)

variable {tail : Text}

theorem matchesFrom_ahead (ended : tail.head?.any isWordChar = false) :
    steppedPattern.MatchesFrom header.lead (header.word ++ header.ahead tail) := by
  have clear {read : Text} (absent : ';' ∉ read) : ∀ c ∈ read, (!";".toList.contains c) := by
    intro c mem
    have ho : c ≠ ';' := fun eq => absent (eq ▸ mem)
    simpa using ho
  have ha := any_getLast?_of_isBlankText header.lead_blank
  have missed : isBlankText [] := rfl
  refine (from_edge_word isLettered_for).mpr ⟨_, _, rfl, header.spelt, ha, ?_⟩
  refine spans_blanks1.from_seq.mpr ⟨_, _, rfl, ⟨header.gapped, header.gap_blank⟩, ?_⟩
  refine from_captureSeq.mpr ((spans_starLazy _).from_seq.mpr
    ⟨_, _, rfl, clear header.start_clear, ?_⟩)
  refine spans_blanks.from_seq.mpr ⟨[], _, rfl, missed, ?_⟩
  refine (spans_char ';').from_seq.mpr ⟨_, _, rfl, rfl, ?_⟩
  refine spans_blanks.from_seq.mpr ⟨[], _, rfl, missed, ?_⟩
  refine from_captureSeq.mpr ((spans_many false _).from_seq.mpr
    ⟨_, _, rfl, ⟨header.condition_filled, clear header.condition_clear⟩, ?_⟩)
  refine spans_blanks.from_seq.mpr ⟨[], _, rfl, missed, ?_⟩
  refine (spans_char ';').from_seq.mpr ⟨_, _, rfl, rfl, ?_⟩
  refine spans_blanks.from_seq.mpr ⟨[], _, rfl, missed, ?_⟩
  refine from_captureSeq.mpr ((spans_starLazy _).from_seq.mpr
    ⟨_, _, rfl, clear header.step_clear, ?_⟩)
  refine spans_blanks.from_seq.mpr ⟨[], _, rfl, missed, ?_⟩
  refine (from_edge_word isLettered_do).mpr ⟨_, _, rfl, header.closes, ?_,
    (from_edge_behind isLettered_do header.closes).mpr ⟨ended, from_empty.mpr trivial⟩⟩
  simp only [append_nil]
  rw [getLast?_append, getLast?_concat]
  have last := header.step_apart
  cases hs : header.step.getLast? with
  | none => decide
  | some c => rwa [hs] at last

theorem not_matches_earlier {passed front : Text} {stop : Cursor} {final : Groups}
    (hi : header.lead = passed ++ c :: front) : ¬Matches steppedPattern
      (between passed (c :: front ++ (header.word ++ header.ahead tail))) [] stop final := by
  intro hm
  obtain ⟨w, after, whole, spelt, -⟩ := (matches_edge_word isLettered_for).mp hm
  have letter := isLettered_for.head? spelt after
  rw [← whole] at letter
  have hb : isBlank c := all_eq_true.mp header.lead_blank c (by rw [hi]; simp)
  cases (Unicode.not_isWordChar_of_isBlank hb).symm.trans letter

theorem find?_ahead (ended : tail.head?.any isWordChar = false)
    (plain : hasWord "do".toList tail = false) :
    ∃ hit, steppedPattern.find? (header.lead ++ (header.word ++ header.ahead tail)) =
        some hit ∧ hit.lead = header.lead ∧ hit.tail = tail ∧
      trim (hit.group 1) = trim header.start ∧
      trim (hit.group 2) = trim header.condition ∧ trim (hit.group 3) = trim header.step := by
  obtain ⟨stop, final, hm⟩ := header.matchesFrom_ahead ended []
  obtain ⟨hit, here⟩ := matchAt_of_matches isFlat_steppedPattern hm
  have first := find?_of_first here
    fun passed c ahead stop final hi => header.not_matches_earlier hi
  obtain ⟨start, hm⟩ := matches_of_matchAt here
  obtain ⟨w, start', condition, step, closer, parts⟩ := steppedParts_of_matches hm
  have lengths : header.word.length = w.length :=
    (length_of_isSpelling header.spelt).trans (length_of_isSpelling parts.spelt).symm
  obtain ⟨-, onward⟩ := append_inj parts.whole lengths
  rw [ahead, ← append_assoc] at onward
  have clear : ';' ∉ header.gap ++ header.start := by
    simp [semicolon_notMem (all_eq_true.mp header.gap_blank), header.start_clear]
  obtain ⟨rfl, further⟩ := append_sep_inj clear parts.start_clear onward
  obtain ⟨rfl, last⟩ := append_sep_inj header.condition_clear parts.condition_clear further
  obtain ⟨rfl, tails⟩ := eq_of_closers last.symm header.closes parts.closes header.step_apart
    parts.step_apart parts.ended header.step_plain plain
  refine ⟨hit, first, ?_, tails, ?_, parts.condition_eq, parts.step_eq⟩
  · rw [Match.lead, start]
    simp [between]
  · have trimmed := @trim_append header.gap [] header.gap_blank rfl header.start
    rw [append_nil] at trimmed
    rw [parts.start_eq, trimmed]

end SteppedHeader

/-- A header `for name from ...` and whatever follows it. No `do` comes behind two semicolons, or it
could be a header with a step. -/
structure CountingHeader where
  lead : Text
  word : Text
  gap : Text
  name : Text
  space : Text
  origin : Text
  tail : Text
  apart : lead.getLast?.any isWordChar = false := by decide
  spelt : isSpelling "for".toList word = true := by decide
  gapped : gap ≠ [] := by decide
  gap_blank : isBlankText gap = true := by decide
  named : name ≠ [] := by decide
  name_word : name.all isWordChar = true := by decide
  spaced : space ≠ [] := by decide
  space_blank : isBlankText space = true := by decide
  ranges : isSpelling "from".toList origin = true := by decide
  ended : tail.head?.any isWordChar = false := by decide
  stepless : hasWord "do".toList (behindSemicolon (behindSemicolon
    (lead ++ (word ++ (gap ++ (name ++ (space ++ (origin ++ tail)))))))) = false := by decide

namespace CountingHeader

variable (header : CountingHeader)

def text : Text :=
  header.lead ++ (header.word ++ (header.gap ++ (header.name ++ (header.space ++
    (header.origin ++ header.tail)))))

theorem find?_text : steppedPattern.find? header.text = none := by
  refine find?_eq_none fun pre after stop final whole hm => ?_
  obtain ⟨w, start, condition, step, closer, parts⟩ :=
    @steppedParts_of_matches pre after ⟨between pre after, stop, final⟩ hm
  have there := parts.hasWord_behind
  rw [← whole] at there
  cases header.stepless.symm.trans there

theorem isMatch_text : countingPattern.isMatch header.text := by
  refine (isMatch_iff isFlat_countingPattern).mpr ⟨header.lead, _, rfl, ?_⟩
  refine (from_edge_word isLettered_for).mpr ⟨_, _, rfl, header.spelt, header.apart, ?_⟩
  refine spans_blanks1.from_seq.mpr ⟨_, _, rfl, ⟨header.gapped, header.gap_blank⟩, ?_⟩
  refine (spans_many true isWordChar).from_seq.mpr
    ⟨_, _, rfl, ⟨header.named, all_eq_true.mp header.name_word⟩, ?_⟩
  refine spans_blanks1.from_seq.mpr ⟨_, _, rfl, ⟨header.spaced, header.space_blank⟩, ?_⟩
  refine (spans_litAnyCase "from").from_seq.mpr ⟨_, _, rfl, header.ranges, ?_⟩
  exact (from_edge_behind isLettered_from header.ranges).mpr ⟨header.ended, from_empty.mpr trivial⟩

end CountingHeader

structure PlainLine where
  text : Text
  without_for : hasWord "for".toList text = false := by decide
  without_next : hasWord "next".toList text = false := by decide

section Absence

variable {t : Text}

theorem find?_stepped_of_absent (absent : hasWord "for".toList t = false) :
    steppedPattern.find? t = none := by
  refine find?_eq_none fun pre after stop final whole hm => ?_
  obtain ⟨w, start, condition, step, closer, parts⟩ :=
    @steppedParts_of_matches pre after ⟨between pre after, stop, final⟩ hm
  have right : (start ++ ';' :: (condition ++ ';' :: (step ++ (closer ++ stop.after)))).head?.any
      isWordChar = false := by
    have spaced := parts.spaced
    cases start with
    | nil => exact (by decide : isWordChar ';' = false)
    | cons c start => exact spaced
  have there := hasWord_iff.mpr ⟨pre, w, _, whole.trans (by rw [parts.whole]; rfl),
    parts.spelt, parts.apart, right⟩
  rw [absent] at there
  cases there

theorem isMatch_counting_of_absent (absent : hasWord "for".toList t = false) :
    countingPattern.isMatch t = false := by
  have missed : countingPattern.find? t = none := by
    refine find?_eq_none fun pre after stop final whole hm => ?_
    obtain ⟨w, rest, rfl, spelt, ha, hm⟩ := (matches_edge_word isLettered_for).mp hm
    obtain ⟨gap, rest, rfl, ⟨gapped, hb⟩, -⟩ := (spans_many true isBlank).seq.mp hm
    obtain ⟨c, gap, rfl⟩ := exists_cons_of_ne_nil gapped
    have right := Unicode.not_isWordChar_of_isBlank (hb c (mem_cons_self ..))
    have there := hasWord_iff.mpr ⟨pre, w, _, whole, spelt, ha, right⟩
    rw [absent] at there
    cases there
  rw [isMatch, missed]
  rfl

theorem find?_next_of_absent (absent : hasWord "next".toList t = false) :
    nextPattern.find? t = none := by
  refine find?_eq_none fun pre after stop final whole hm => ?_
  obtain ⟨w, rest, rfl, spelt, ha, hm⟩ := (matches_edge_word isLettered_next).mp hm
  obtain ⟨ended, -⟩ := (matches_edge_behind isLettered_next spelt).mp hm
  have there := hasWord_iff.mpr ⟨pre, w, rest, whole, spelt, ha, ended⟩
  rw [absent] at there
  cases there

end Absence

/-- A line whose first `next` closes a block, with the semicolon behind it if there is one. -/
structure NextLine where
  lead : Text
  word : Text
  gap : Text
  mark : Text
  tail : Text
  lead_apart : lead.getLast?.any isWordChar = false := by decide
  lead_plain : hasWord "next".toList lead = false := by decide
  spelt : isSpelling "next".toList word = true := by decide
  gap_blank : isBlankText gap = true := by decide
  marks : mark = [';'] ∨ mark = [] ∧ tail.head?.any (fun c => isBlank c || c == ';') = false := by
    decide
  ended : (gap ++ (mark ++ tail)).head?.any isWordChar = false := by decide
  without_for : hasWord "for".toList (lead ++ (word ++ (gap ++ (mark ++ tail)))) = false := by
    decide

namespace NextLine

variable (line : NextLine)

def rest : Text :=
  line.gap ++ (line.mark ++ line.tail)

def text : Text :=
  line.lead ++ (line.word ++ line.rest)

theorem matchAt_text : nextPattern.matchAt (between line.lead (line.word ++ line.rest)) =
    some ⟨between line.lead (line.word ++ line.rest),
      between (line.lead ++ line.word ++ line.gap ++ line.mark) line.tail, []⟩ := by
  have left : (between line.lead (line.word ++ line.rest)).atEdge isWordChar := by
    rw [Cursor.atEdge_between, line.lead_apart, isLettered_next.head? line.spelt]
    rfl
  have right : (between (line.lead ++ line.word) line.rest).atEdge isWordChar := by
    rw [Cursor.atEdge_between, isLettered_next.getLast? line.spelt, rest, line.ended]
    rfl
  obtain ⟨hs, marks⟩ : (line.mark ++ line.tail).head?.any isBlank = false ∧
      (line.mark = [';'] ∨ line.mark = [] ∧ line.tail.head? ≠ some ';') := by
    rcases line.marks with marked | ⟨unmarked, other⟩
    · rw [marked]
      exact ⟨(by decide : isBlank ';' = false), .inl rfl⟩
    · rw [unmarked, nil_append]
      cases ahead : line.tail.head? with
      | none => exact ⟨rfl, .inr ⟨rfl, by simp⟩⟩
      | some c =>
        rw [ahead] at other
        have neither := Bool.or_eq_false_iff.mp other
        exact ⟨neither.1, .inr ⟨rfl, by simpa using neither.2⟩⟩
  unfold matchAt nextPattern Regex.all
  simp only [foldr_cons]
  rw [run_edge left]
  refine (run_letters line.spelt).trans ?_
  rw [run_edge right]
  exact run_blanks_opt (fun _ _ => rfl) (all_eq_true.mp line.gap_blank) hs marks

theorem not_matches_earlier {passed ahead : Text} {stop : Cursor} {final : Groups}
    (hi : line.lead = passed ++ c :: ahead) : ¬Matches nextPattern
      (between passed (c :: ahead ++ (line.word ++ line.rest))) [] stop final := by
  intro hm
  obtain ⟨w, after, whole, spelt, ha, hm⟩ := (matches_edge_word isLettered_next).mp hm
  obtain ⟨ended, -⟩ := (matches_edge_behind isLettered_next spelt).mp hm
  have there := hasWord_of_begins isLettered_next hi line.lead_apart whole spelt ha ended
  rw [line.lead_plain] at there
  cases there

theorem find?_text : ∃ hit, nextPattern.find? line.text = some hit ∧
    hit.lead = line.lead ∧ hit.tail = line.tail := by
  refine ⟨_, find?_of_first line.matchAt_text
    fun passed c ahead stop final hi => line.not_matches_earlier hi, ?_, rfl⟩
  simp [Match.lead, between]

end NextLine

end Lines

inductive Line where
  | stepped (header : SteppedHeader)
  | counting (header : CountingHeader)
  | opening (line : PlainLine)
  | closing (line : PlainLine)
  | other (line : PlainLine)
  | next (line : NextLine)

namespace Line

def text : Line → Text
  | .stepped header => header.text
  | .counting header => header.text
  | .opening line | .closing line | .other line => line.text
  | .next line => line.text

def depthAfter (depth : Nat) : Line → Nat
  | .stepped _ | .counting _ | .opening _ => depth + 1
  | .closing _ | .next _ => depth - 1
  | .other _ => depth

def ending : Option Text → Text
  | some step => step ++ "; END;".toList
  | none => "END;".toList

/-- What becomes of a line, none where it stays as it is, and the blocks that are open after it.
Each block comes with the step of its loop if it has one, the innermost block first. -/
def lower (blocks : List (Option Text)) : Line → Option Text × List (Option Text)
  | .stepped header => (some header.lowered, header.step? :: blocks)
  | .counting _ | .opening _ => (none, none :: blocks)
  | .closing _ => (none, blocks.tail)
  | .other _ => (none, blocks)
  | .next line => (some (line.lead ++ ending (blocks.headD none) ++ line.tail), blocks.tail)

end Line

def loopsAll (opened : List OpenLoop) (depth : Nat) : List Line → List (Option Text)
  | [] => []
  | line :: rest =>
    (loops opened depth line.text).1 ::
      loopsAll (loops opened depth line.text).2 (line.depthAfter depth) rest

def lowerAll (blocks : List (Option Text)) : List Line → List (Option Text)
  | [] => []
  | line :: rest => (line.lower blocks).1 :: lowerAll (line.lower blocks).2 rest

def AreInside (depth : Nat) : List Line → Prop
  | [] => True
  | line :: rest => 0 < depth ∧ AreInside (line.depthAfter depth) rest

instance decidableAreInside (depth : Nat) : (lines : List Line) → Decidable (AreInside depth lines)
  | [] => .isTrue trivial
  | line :: rest =>
    have := decidableAreInside (line.depthAfter depth) rest
    inferInstanceAs (Decidable (_ ∧ _))

section Step

variable {opened : List OpenLoop} {depth : Nat} {blocks : List (Option Text)}

inductive Tracks : List OpenLoop → List (Option Text) → Prop where
  | nil : Tracks [] []
  | loop {opened : List OpenLoop} {blocks : List (Option Text)} (step : Option Text)
      (outer : Tracks opened blocks) : Tracks (⟨blocks.length + 1, step⟩ :: opened) (step :: blocks)
  | block {opened : List OpenLoop} {blocks : List (Option Text)} (outer : Tracks opened blocks) :
      Tracks opened (none :: blocks)

theorem Tracks.level_le (tracks : Tracks opened blocks) :
    ∀ loop ∈ opened, loop.level ≤ blocks.length := by
  induction tracks with
  | nil => simp
  | loop step outer ih =>
    intro loop mem
    rcases mem_cons.mp mem with rfl | inner
    · exact Nat.le_refl _
    · exact Nat.le_succ_of_le (ih loop inner)
  | block outer ih => exact fun loop mem => Nat.le_succ_of_le (ih loop mem)

/-- The loops that are not too deep are those of the open blocks. A loop that is too deep was closed
in some other way. -/
structure Follows (opened : List OpenLoop) (depth : Nat) (blocks : List (Option Text)) : Prop where
  tracks : Tracks (opened.filter fun loop => loop.level ≤ depth) blocks
  length : blocks.length = depth

theorem Tracks.follows (tracks : Tracks opened blocks) {depth : Nat}
    (length : blocks.length = depth) : Follows opened depth blocks := by
  have kept : (opened.filter fun loop => loop.level ≤ depth) = opened := by
    refine filter_eq_self.mpr fun loop mem => ?_
    simpa [← length] using tracks.level_le loop mem
  refine ⟨?_, length⟩
  rw [kept]
  exact tracks

theorem Tracks.tail_follows (tracks : Tracks opened blocks) :
    Follows opened (blocks.length - 1) blocks.tail := by
  cases tracks with
  | nil => exact nil.follows rfl
  | loop step outer =>
    have rest := outer.follows rfl
    refine ⟨?_, rfl⟩
    rw [filter_cons_of_neg (by simp)]
    exact rest.tracks
  | block outer => exact outer.follows rfl

theorem Tracks.closeLoop_eq (tracks : Tracks opened blocks) (hi : 0 < blocks.length) :
    (closeLoop blocks.length opened).1 = Line.ending (blocks.headD none) ∧
      Follows (closeLoop blocks.length opened).2 (blocks.length - 1) blocks.tail := by
  cases tracks with
  | nil => cases hi
  | @loop opened blocks step outer =>
    have popped : closeLoop (blocks.length + 1) (⟨blocks.length + 1, step⟩ :: opened) =
        (Line.ending step, opened) := by
      rw [closeLoop, if_pos rfl]
      cases step <;> rfl
    rw [length_cons, popped]
    exact ⟨rfl, outer.follows rfl⟩
  | @block opened blocks outer =>
    have kept : closeLoop (blocks.length + 1) opened = ("END;".toList, opened) := by
      cases opened with
      | nil => rfl
      | cons inner opened =>
        have shallow := outer.level_le inner (mem_cons_self ..)
        rw [closeLoop, if_neg (by omega)]
    rw [length_cons, kept]
    exact ⟨rfl, outer.follows rfl⟩

theorem loops_ahead (header : SteppedHeader) (hi : 0 < depth) {tail : Text}
    (ended : tail.head?.any isWordChar = false) (hp : hasWord "do".toList tail = false) :
    loops opened depth (header.lead ++ (header.word ++ header.ahead tail)) =
      (some (header.lead ++ whileHeader (trim header.start) (trim header.condition) ++
        tail), ⟨depth + 1, header.step?⟩ :: opened.filter fun loop => loop.level ≤ depth) := by
  obtain ⟨hit, first, lead, tail, start, cond, step⟩ := header.find?_ahead ended hp
  unfold loops
  rw [if_neg (by omega)]
  rw [first]
  dsimp only
  rw [lead, tail, start, cond, step]
  rfl

theorem loops_stepped (header : SteppedHeader) (hi : 0 < depth) :
    loops opened depth header.text = (some header.lowered,
      ⟨depth + 1, header.step?⟩ :: opened.filter fun loop => loop.level ≤ depth) :=
  loops_ahead header hi (any_head?_of_isBlankText header.tail_blank)
    (hasWord_of_isBlankText isLettered_do header.tail_blank)

theorem loops_counting (header : CountingHeader) (hi : 0 < depth) :
    loops opened depth header.text =
      (none, ⟨depth + 1, none⟩ :: opened.filter fun loop => loop.level ≤ depth) := by
  unfold loops
  rw [if_neg (by omega)]
  rw [header.find?_text]
  dsimp only
  rw [header.isMatch_text, if_pos rfl]

theorem loops_plain (line : PlainLine) (hi : 0 < depth) :
    loops opened depth line.text = (none, opened.filter fun loop => loop.level ≤ depth) := by
  unfold loops
  rw [if_neg (by omega)]
  rw [find?_stepped_of_absent line.without_for]
  dsimp only
  rw [isMatch_counting_of_absent line.without_for, if_neg (by simp),
    find?_next_of_absent line.without_next]

theorem loops_next (line : NextLine) (hi : 0 < depth) :
    loops opened depth line.text =
      (some (line.lead ++ (closeLoop depth (opened.filter fun loop => loop.level ≤ depth)).1 ++
        line.tail), (closeLoop depth (opened.filter fun loop => loop.level ≤ depth)).2) := by
  obtain ⟨hit, first, lead, tail⟩ := line.find?_text
  have absent : hasWord "for".toList line.text = false := line.without_for
  unfold loops
  rw [if_neg (by omega)]
  rw [find?_stepped_of_absent absent]
  dsimp only
  rw [isMatch_counting_of_absent absent, if_neg (by simp), first]
  dsimp only
  rw [lead, tail]

/-- Every line becomes what the open blocks ask for, and the loops go on following them. -/
theorem Follows.step (follows : Follows opened depth blocks) (hi : 0 < depth) (line : Line) :
    (loops opened depth line.text).1 = (line.lower blocks).1 ∧
      Follows (loops opened depth line.text).2 (line.depthAfter depth) (line.lower blocks).2 := by
  obtain ⟨tracks, rfl⟩ := follows
  cases line with
  | stepped header =>
    rw [Line.text, loops_stepped header hi]
    exact ⟨rfl, (tracks.loop header.step?).follows rfl⟩
  | counting header =>
    rw [Line.text, loops_counting header hi]
    exact ⟨rfl, (tracks.loop none).follows rfl⟩
  | opening line =>
    rw [Line.text, loops_plain line hi]
    exact ⟨rfl, tracks.block.follows rfl⟩
  | closing line =>
    rw [Line.text, loops_plain line hi]
    exact ⟨rfl, tracks.tail_follows⟩
  | other line =>
    rw [Line.text, loops_plain line hi]
    exact ⟨rfl, tracks.follows rfl⟩
  | next line =>
    obtain ⟨closing, rest⟩ := tracks.closeLoop_eq hi
    rw [Line.text, loops_next line hi, closing]
    exact ⟨rfl, rest⟩

theorem Follows.all (follows : Follows opened depth blocks) {lines : List Line}
    (hi : AreInside depth lines) : loopsAll opened depth lines = lowerAll blocks lines := by
  induction lines generalizing opened depth blocks with
  | nil => rfl
  | cons line rest ih =>
    obtain ⟨text, further⟩ := follows.step hi.1 line
    rw [loopsAll, lowerAll, text, ih further hi.2]

end Step

/-- Whatever lines follow one another inside a block, however loops nest and however inner loops
were closed, every line becomes what the stack of open blocks asks for: the `next` that closes a
loop with a step writes out the step of that loop and `END;`, every other `next` just `END;`, and no
other line writes out a step. Loops that are left over from deeper blocks make no difference. -/
theorem next_closes_its_loop {opened : List OpenLoop} {depth : Nat} {lines : List Line}
    (stale : ∀ loop ∈ opened, depth < loop.level) (inside : AreInside depth lines) :
    loopsAll opened depth lines = lowerAll (replicate depth none) lines := by
  have forgotten : (opened.filter fun loop => loop.level ≤ depth) = [] := by
    rw [filter_eq_nil_iff]
    intro loop listed
    have deeper := stale loop listed
    simpa using deeper
  have blocks : Tracks [] (replicate depth none) := by
    clear inside stale forgotten
    induction depth with
    | zero => exact .nil
    | succ depth ih => exact ih.block
  exact Follows.all ⟨forgotten ▸ blocks, length_replicate⟩ inside

/-- A loop with a step that holds a counting loop and a loop that is closed by a plain `END`. -/
theorem next_closes_its_loop_nested :
    let outer : SteppedHeader :=
      { lead := " ".toList, word := "for".toList, gap := " ".toList, start := "i := 0".toList,
        condition := " i < 3".toList, step := " i += 1 ".toList, closer := "do".toList, tail := [] }
    let counting : CountingHeader :=
      { lead := [], word := "FOR".toList, gap := " ".toList, name := "j".toList,
        space := " ".toList, origin := "FROM".toList, tail := " 1 TO 3 DO a; b; c;".toList }
    let inner : SteppedHeader :=
      { lead := [], word := "for".toList, gap := " ".toList, start := [],
        condition := " a".toList, step := " a := b ".toList, closer := "do".toList, tail := [] }
    let lines : List Line :=
      [.stepped outer, .counting counting, .opening ⟨"if x then".toList, by decide, by decide⟩,
        .closing ⟨"end;".toList, by decide, by decide⟩,
        .next { lead := [], word := "next".toList, gap := [], mark := ";".toList, tail := [] },
        .stepped inner, .closing ⟨"END;".toList, by decide, by decide⟩,
        .next { lead := "x; ".toList, word := "Next".toList, gap := [], mark := [], tail := [] }]
    (∀ loop ∈ [OpenLoop.mk 5 (some "k".toList)], 1 < loop.level) ∧ AreInside 1 lines ∧
      loopsAll [⟨5, some "k".toList⟩] 1 lines =
        [some " i := 0; WHILE i < 3 DO".toList, none, none, none, some "END;".toList,
          some "WHILE a DO".toList, none, some "x; i += 1; END;".toList] := by
  intro outer counting inner lines
  have stale : ∀ loop ∈ [OpenLoop.mk 5 (some "k".toList)], 1 < loop.level := by decide
  have inside : AreInside 1 lines := by decide
  exact ⟨stale, inside, (next_closes_its_loop stale inside).trans (by decide +kernel)⟩

end Construct

end PrimePlus
