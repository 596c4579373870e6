import PrimePlus.Construct.Switch
import PrimePlus.Proofs.LoopPairing

/-!
Which subject a branch is compared with. The list of open switches may hold entries of closed ones
(`Covers`).
-/

namespace PrimePlus.Construct.Switches

open List

open Regex
open Cursor (between)
open Unicode (isBlank isWordChar)
open Text

section Patterns

variable {t : Text}

def IsHeader (t : Text) : Prop :=
  ∃ lead gap body, t = lead ++ ("switch".toList ++ (gap ++ body)) ∧ isBlankText lead = true ∧
    (gap ≠ [] ∧ isBlankText gap = true) ∧ (body ≠ [] ∧ '\n' ∉ body)

def HasBranch (t : Text) : Prop :=
  ∃ before gap value space after,
    t = before ++ ("case".toList ++ (gap ++ (value ++ (space ++ ("do".toList ++ after))))) ∧
    before.getLast?.any isWordChar = false ∧ (gap ≠ [] ∧ isBlankText gap = true) ∧
    (value ≠ [] ∧ '\n' ∉ value) ∧ (space ≠ [] ∧ isBlankText space = true) ∧
    after.head?.any isWordChar = false

/-- A line with nothing but an `end`, in any case, and at most one semicolon behind it. -/
def IsEnding (t : Text) : Prop :=
  ∃ lead word gap mark tail, t = lead ++ (word ++ (gap ++ (mark ++ tail))) ∧
    isBlankText lead = true ∧ isSpelling "end".toList word = true ∧ isBlankText gap = true ∧
    (mark = [';'] ∨ mark = []) ∧ isBlankText tail = true

theorem isFlat_switchPattern : switchPattern.IsFlat := by
  simp [switchPattern, Regex.all, front, back, blanks1, blanks, blank,
    Regex.star, plus, notNewline, lit, text, char]

theorem isFlat_casePattern : casePattern.IsFlat := by
  simp [casePattern, Regex.all, edge, blanks1, blank, plus, plusLazy, notNewline, lit, text, char]

theorem isFlat_switchEndPattern : switchEndPattern.IsFlat := by
  simp [switchEndPattern, Regex.all, front, back, blanks, blank, Regex.star,
    plus, opt, char, isFlat_litAnyCase]

theorem isSpelling_case : isSpelling "case".toList "case".toList := by decide

theorem isSpelling_do : isSpelling "do".toList "do".toList := by decide

theorem isLettered_end : IsLettered "end".toList := by decide +kernel

theorem isLettered_case : IsLettered "case".toList := by decide +kernel

theorem forall_ne_newline {read : Text} : (∀ c ∈ read, (c != '\n')) ↔ '\n' ∉ read := by
  constructor
  · intro clear mem
    simpa using clear '\n' mem
  · intro absent c mem
    have ho : c ≠ '\n' := fun eq => absent (eq ▸ mem)
    simpa using ho

variable {pre : Text}

theorem spans_line (greedy : Bool) :
    Spans (fun read => read ≠ [] ∧ '\n' ∉ read) (.many greedy .notNewline) :=
  (spans_many greedy _).congr fun _ => and_congr_right fun _ => forall_ne_newline

theorem from_casePattern : casePattern.MatchesFrom pre t ↔ ∃ gap value space after,
    t = "case".toList ++ (gap ++ (value ++ (space ++ ("do".toList ++ after)))) ∧
    pre.getLast?.any isWordChar = false ∧ (gap ≠ [] ∧ isBlankText gap) ∧
    (value ≠ [] ∧ '\n' ∉ value) ∧ (space ≠ [] ∧ isBlankText space) ∧
    after.head?.any isWordChar = false := by
  simp only [casePattern, Regex.all, plusLazy, foldr_cons, foldr_nil, from_edge, from_lit,
    spans_blanks1.from_seq, from_captureSeq, (spans_line false).from_seq,
    isLettered_do.getLast? isSpelling_do, from_empty, and_true]
  constructor
  · rintro ⟨ha, _, rfl, gap, _, rfl, gapped, value, _, rfl, filled, space, _, rfl, spaced, after,
      rfl, ended⟩
    rw [isLettered_case.head? isSpelling_case] at ha
    exact ⟨gap, value, space, after, rfl, by simpa using ha, gapped, filled, spaced,
      by simpa using ended⟩
  · rintro ⟨gap, value, space, after, rfl, ha, gapped, filled, spaced, ended⟩
    exact ⟨by rw [ha]; rfl, _, rfl, gap, _, rfl, gapped, value, _, rfl, filled, space, _, rfl,
      spaced, after, rfl, by rw [ended]; rfl⟩

theorem isMatch_switchPattern : switchPattern.isMatch t ↔ IsHeader t := by
  rw [isMatch_iff isFlat_switchPattern]
  simp only [switchPattern, Regex.all, plus, foldr_cons, foldr_nil, from_front, from_captureSeq,
    spans_blanks.from_seq, from_lit, spans_blanks1.from_seq, (spans_line true).from_seq, from_back,
    from_empty, and_true]
  constructor
  · rintro ⟨_, _, rfl, rfl, lead, _, rfl, hb, _, rfl, gap, _, rfl, gapped, b, _, rfl, filled, rfl⟩
    exact ⟨lead, gap, b, by simp, hb, gapped, filled⟩
  · rintro ⟨lead, gap, b, rfl, hb, gapped, filled⟩
    exact ⟨[], _, rfl, rfl, lead, _, rfl, hb, _, rfl, gap, _, rfl, gapped, b, [], by simp,
      filled, rfl⟩

theorem isMatch_casePattern : casePattern.isMatch t ↔ HasBranch t := by
  rw [isMatch_iff isFlat_casePattern]
  simp only [from_casePattern]
  constructor
  · rintro ⟨pre, _, rfl, gap, value, space, after, rfl, branch⟩
    exact ⟨pre, gap, value, space, after, rfl, branch⟩
  · rintro ⟨pre, gap, value, space, after, rfl, branch⟩
    exact ⟨pre, _, rfl, gap, value, space, after, rfl, branch⟩

theorem isMatch_switchEndPattern : switchEndPattern.isMatch t ↔ IsEnding t := by
  rw [isMatch_iff isFlat_switchEndPattern]
  simp only [switchEndPattern, Regex.all, opt, foldr_cons, foldr_nil, from_front,
    spans_blanks.from_seq, (spans_litAnyCase "end").from_seq,
    ((spans_char ';').alt spans_empty).from_seq, from_back, from_empty, and_true]
  constructor
  · rintro ⟨_, _, rfl, rfl, lead, _, rfl, hb, w, _, rfl, spelt, gap, _, rfl, gap_blank, mark, _,
      rfl, marks, tail, _, rfl, tail_blank, rfl⟩
    exact ⟨lead, w, gap, mark, tail, by simp, hb, spelt, gap_blank, marks, tail_blank⟩
  · rintro ⟨lead, w, gap, mark, tail, rfl, hb, spelt, gap_blank, marks, tail_blank⟩
    exact ⟨[], _, rfl, rfl, lead, _, rfl, hb, w, _, rfl, spelt, gap, _, rfl, gap_blank, mark, _,
      rfl, marks, tail, [], by simp, tail_blank, rfl⟩

instance decidableIsHeader (t : Text) : Decidable (IsHeader t) :=
  decidable_of_iff _ isMatch_switchPattern

instance decidableHasBranch (t : Text) : Decidable (HasBranch t) :=
  decidable_of_iff _ isMatch_casePattern

instance decidableIsEnding (t : Text) : Decidable (IsEnding t) :=
  decidable_of_iff _ isMatch_switchEndPattern

end Patterns

section Lines

/-- A line `switch expression`, with nothing but blanks and semicolons behind the expression. -/
structure Header where
  lead : Text
  gap : Text
  body : Text
  lead_blank : isBlankText lead = true := by decide
  gapped : gap ≠ [] := by decide
  gap_blank : isBlankText gap = true := by decide
  shown : body.head?.any isBlank = false := by decide
  clear : '\n' ∉ body := by decide
  filled : trim ((Lexical.splitTop ';' body).headD []) ≠ [] := by decide
  alone : isBlankText (join [';'] (Lexical.splitTop ';' body).tail) = true := by decide

namespace Header

variable (header : Header)

def text : Text :=
  header.lead ++ ("switch".toList ++ (header.gap ++ header.body))

def expression : Text :=
  trim ((Lexical.splitTop ';' header.body).headD [])

/-- Whether the expression is a name that branches can be compared with as it stands. -/
def isNamed : Bool :=
  Pattern.isPlainName header.expression

def variableName (n : Nat) : Text :=
  "sw".toList ++ ofNat n

/-- What the branches of the switch are compared with, where a number of subjects were stored
before it. -/
def subject (stored : Nat) : Text :=
  if header.isNamed then header.expression else variableName (stored + 1)

def storedAfter (stored : Nat) : Nat :=
  if header.isNamed then stored else stored + 1

def lowered (stored : Nat) : Text :=
  (if header.isNamed then [] else
    header.lead ++ "LOCAL ".toList ++ variableName (stored + 1) ++ " := ".toList ++
      header.expression ++ ";\n".toList) ++ header.lead ++ "CASE".toList

theorem body_ne_nil : header.body ≠ [] := by
  intro missed
  have filled := header.filled
  rw [missed] at filled
  exact filled rfl

theorem find?_text : ∃ hit, switchPattern.find? header.text = some hit ∧
    hit.group 1 = header.lead ∧ hit.group 2 = header.body := by
  have lead_all : ∀ c ∈ header.lead, isBlank c := all_eq_true.mp header.lead_blank
  have here : switchPattern.matchAt (between [] header.text) = some ⟨between [] header.text,
      between (header.lead ++ ("switch".toList ++ (header.gap ++ header.body))) [],
      [⟨2, between (header.lead ++ ("switch".toList ++ header.gap)) header.body,
          between (header.lead ++ ("switch".toList ++ (header.gap ++ header.body))) []⟩,
        ⟨1, between [] header.text,
          between header.lead ("switch".toList ++ (header.gap ++ header.body))⟩]⟩ := by
    unfold matchAt switchPattern Regex.all
    simp only [foldr_cons]
    rw [run.eq_4, front, run.eq_3]
    rw [run.eq_4, run.eq_7]
    refine run_star_of_longest lead_all (show isBlank 's' = false by decide) ?_
    rw [run.eq_4, run_lit]
    refine run_plus_of_longest header.gapped (all_eq_true.mp header.gap_blank) header.shown ?_
    rw [← append_nil header.body]
    refine run_plus_of_longest header.body_ne_nil (forall_ne_newline.mpr header.clear) rfl ?_
    simp only [append_nil, append_assoc]
    rfl
  refine ⟨_, @find?_of_first _ switchPattern [] header.text here ?_, ?_, ?_⟩
  · intro passed c ha stop final hi
    simp at hi
  · exact Cursor.spanTo_between [] header.lead _
  · have reads :=
      Cursor.spanTo_between (header.lead ++ ("switch".toList ++ header.gap)) header.body []
    rw [append_nil, append_assoc] at reads
    exact reads

end Header

def startsDo (t : Text) : Bool :=
  (dropLead? t "do".toList).any fun rest => !rest.head?.any isWordChar

def hasDo : Text → Bool
  | [] => false
  | c :: t => (isBlank c && startsDo t) || hasDo t

theorem hasDo_of_append {u : Text} {c : Char} {r : Text} (hb : isBlank c)
    (ended : r.head?.any isWordChar = false) :
    hasDo (u ++ c :: ("do".toList ++ r)) := by
  induction u with
  | nil =>
    have starts : startsDo ("do".toList ++ r) := by
      rw [startsDo, dropLead?_eq_some_iff.mpr rfl, Option.any_some, ended]
      rfl
    rw [nil_append, hasDo, hb, starts]
    rfl
  | cons d u ih => rw [cons_append, hasDo, ih, Bool.or_true]

/-- A line `case value do`, with whatever follows it. The `do` is the first one behind a blank. -/
structure Branch where
  lead : Text
  gap : Text
  value : Text
  space : Text
  tail : Text
  lead_blank : isBlankText lead = true := by decide
  gapped : gap ≠ [] := by decide
  gap_blank : isBlankText gap = true := by decide
  filled : value ≠ [] := by decide
  value_starts : value.head?.any isBlank = false := by decide
  value_ends : value.getLast?.any isBlank = false := by decide
  clear : '\n' ∉ value := by decide
  value_open : hasDo value = false := by decide
  spaced : space ≠ [] := by decide
  space_blank : isBlankText space = true := by decide
  ended : tail.head?.any isWordChar = false := by decide
  only : hasWord "case".toList tail = false := by decide

namespace Branch

variable (branch : Branch)

def core : Text :=
  "case".toList ++ (branch.gap ++ (branch.value ++ (branch.space ++ "do".toList)))

def text : Text :=
  branch.lead ++ (branch.core ++ branch.tail)

def lowered (subject : Text) : Text :=
  branch.lead ++ ("IF ".toList ++ subject ++ " == ".toList ++ branch.value ++ " THEN".toList ++
    branch.tail)

theorem core_append : branch.core ++ branch.tail = "case".toList ++ (branch.gap ++ (branch.value ++
    (branch.space ++ ("do".toList ++ branch.tail)))) := by
  simp only [core, append_assoc]

variable {passed : Text} {final : Groups} {stop : Cursor}

theorem not_matches_inside {a pre : Text} {c : Char} {gs : Groups}
    (whole : branch.value = passed ++ c :: a) :
    ¬Matches (.seq .blanks1 (.seq (.lit "do") (.seq .edge .empty)))
      (between pre (c :: a ++ (branch.space ++ ("do".toList ++ branch.tail))))
      gs stop final := by
  intro hm
  obtain ⟨hb, t, split, ⟨ne, blanks⟩, hm⟩ := (spans_many true isBlank).seq.mp hm
  obtain ⟨_, t, rfl, rfl, hm⟩ := (spans_lit "do").seq.mp hm
  obtain ⟨ended, -⟩ := (matches_edge_behind isLettered_do isSpelling_do).mp hm
  obtain ⟨front, last, value_last, hs⟩ : ∃ front last, c :: a = front ++ [last] ∧
      isBlank last = false := by
    have ends := branch.value_ends
    rcases eq_nil_or_concat (c :: a) with missed | ⟨front, last, shape⟩
    · cases missed
    · rw [concat_eq_append] at shape
      rw [whole, shape, ← append_assoc, getLast?_concat] at ends
      exact ⟨front, last, shape, ends⟩
  rcases append_eq_append_iff.mp split with ⟨x, longer, -⟩ | ⟨x, shorter, r⟩
  · -- the value would end in a blank
    have among := blanks last (by rw [longer, value_last]; simp)
    cases hs.symm.trans among
  · cases x with
    | nil =>
      rw [append_nil] at shorter
      have among := blanks last (by rw [← shorter, value_last]; simp)
      cases hs.symm.trans among
    | cons d x =>
    cases x with
    | nil =>
      -- the word would go on among the blanks in front of the `do`
      obtain ⟨e, space, shape⟩ := exists_cons_of_ne_nil branch.spaced
      have blank' := branch.space_blank
      rw [shape] at r blank'
      have letter : 'o' = e := (cons.inj (cons.inj r).2).1
      rw [← letter] at blank'
      cases blank'
    | cons e y =>
      have first : 'd' = d := (cons.inj r).1
      have second : 'o' = e := (cons.inj (cons.inj r).2).1
      have onward : t = y ++ (branch.space ++ ("do".toList ++ branch.tail)) :=
        (cons.inj (cons.inj r).2).2
      subst first second
      have right : y.head?.any isWordChar = false := by
        cases y with
        | nil => rfl
        | cons d y => rwa [onward] at ended
      rcases eq_nil_or_concat hb with rfl | ⟨front, b, rfl⟩
      · exact ne rfl
      · have hi : branch.value = (passed ++ front) ++ b :: ("do".toList ++ y) := by
          rw [whole, shorter]
          simp
        have hc := @hasDo_of_append (passed ++ front) b y (blanks b (by simp)) right
        rw [← hi, branch.value_open] at hc
        cases hc

theorem matchAt_text : ∃ hit,
    casePattern.matchAt (between branch.lead (branch.core ++ branch.tail)) = some hit ∧
      hit.stop = between (branch.lead ++ branch.core) branch.tail ∧ hit.group 1 = branch.value := by
  have left : (between branch.lead (branch.core ++ branch.tail)).atEdge isWordChar := by
    rw [Cursor.atEdge_between, any_getLast?_of_isBlankText branch.lead_blank]
    rfl
  have right : (between (branch.lead ++ "case".toList ++ branch.gap ++ branch.value ++
      branch.space ++ "do".toList) branch.tail).atEdge isWordChar := by
    rw [Cursor.atEdge_between, isLettered_do.getLast? isSpelling_do, branch.ended]
    rfl
  have value_starts : (branch.value ++ (branch.space ++ ("do".toList ++ branch.tail))).head?.any
      isBlank = false := by
    obtain ⟨c, value, shape⟩ := exists_cons_of_ne_nil branch.filled
    have starts := branch.value_starts
    rw [shape] at starts ⊢
    exact starts
  refine ⟨⟨between branch.lead (branch.core ++ branch.tail),
    between (branch.lead ++ branch.core) branch.tail,
    [⟨1, between (branch.lead ++ "case".toList ++ branch.gap)
        (branch.value ++ (branch.space ++ ("do".toList ++ branch.tail))),
      between (branch.lead ++ "case".toList ++ branch.gap ++ branch.value)
        (branch.space ++ ("do".toList ++ branch.tail))⟩]⟩, ?_, rfl, ?_⟩
  · unfold matchAt casePattern Regex.all
    simp only [foldr_cons, foldr_nil]
    rw [run_edge left, core_append, run.eq_4, run_lit]
    refine run_plus_of_longest branch.gapped (all_eq_true.mp branch.gap_blank) value_starts ?_
    refine run_plusLazy_of_shortest branch.filled (forall_ne_newline.mpr branch.clear) ?_ ?_
    · refine run_plus_of_longest branch.spaced (all_eq_true.mp branch.space_blank)
        (show isBlank 'd' = false by decide) ?_
      rw [run.eq_4, run_lit, run_edge right, run.eq_1]
      simp only [core, append_assoc]
    · intro passed c ha _ whole
      refine Option.eq_none_iff_forall_ne_some.mpr fun result reached => ?_
      obtain ⟨stop, final, hm, -⟩ := exists_of_run _ _ _ _ _ reached
      exact branch.not_matches_inside whole hm
  · exact Cursor.spanTo_between ..

theorem not_matches_lead {a : Text} {c : Char} (hi : branch.lead = passed ++ c :: a) :
    ¬Matches casePattern
      (between passed (c :: a ++ (branch.core ++ branch.tail))) [] stop final := by
  intro hm
  obtain ⟨gap, value, space, after, whole, -⟩ := from_casePattern.mp hm.matchesFrom
  have letter : c = 'c' := (cons.inj whole).1
  have hb : isBlank c := all_eq_true.mp branch.lead_blank c (by rw [hi]; simp)
  rw [letter] at hb
  cases hb

theorem not_matches_tail {pre r : Text} (hi : branch.tail = passed ++ r) :
    ¬Matches casePattern (between (pre ++ passed) r) [] stop final := by
  intro hm
  obtain ⟨gap, value, space, after, rfl, ha, ⟨gapped, gap_blank⟩, -⟩ :=
    from_casePattern.mp hm.matchesFrom
  have right : (gap ++ (value ++ (space ++ ("do".toList ++ after)))).head?.any isWordChar =
      false := by
    obtain ⟨c, gap, rfl⟩ := exists_cons_of_ne_nil gapped
    exact Unicode.not_isWordChar_of_isBlank (all_eq_true.mp gap_blank c (mem_cons_self ..))
  have there := hasWord_iff.mpr ⟨passed, "case".toList, _, hi, isSpelling_case,
    getLast?_any_of_append ha, right⟩
  rw [branch.only] at there
  cases there

theorem branches?_text (subject : Text) :
    branches? subject branch.text = some (branch.lowered subject) := by
  obtain ⟨hit, here, stops, value⟩ := branch.matchAt_text
  have hm : casePattern.isMatch branch.text := by
    obtain ⟨-, hm⟩ := matches_of_matchAt here
    exact isMatch_of_matches isFlat_casePattern hm
  have only := replaceAll_of_only (by simp [core]) here stops
    (fun passed c ha stop final hi => branch.not_matches_lead hi)
    (fun passed r stop final hi => branch.not_matches_tail hi)
    fun hit => "IF ".toList ++ subject ++ " == ".toList ++ hit.group 1 ++ " THEN".toList
  rw [branches?, if_pos hm, text, only, value]
  rfl

theorem trimStart_text : (trimStart branch.text).head? = some 'c' := by
  rw [trimStart, text, dropWhile_append_of_pos (all_eq_true.mp branch.lead_blank)]
  rfl

theorem not_isHeader : ¬IsHeader branch.text := by
  rintro ⟨lead, gap, b, whole, lead_blank, -⟩
  have first := branch.trimStart_text
  rw [whole, trimStart, dropWhile_append_of_pos (all_eq_true.mp lead_blank)] at first
  cases first

theorem not_isEnding : ¬IsEnding branch.text := by
  rintro ⟨lead, w, gap, mark, tail, whole, lead_blank, spelt, -⟩
  have first := branch.trimStart_text
  cases w with
  | nil => cases spelt
  | cons c w =>
    have letter := (Bool.and_eq_true_iff.mp spelt).1
    have inWord := isLettered_end.forall_isWordChar spelt c mem_cons_self
    have hs := ne_true_of_eq_false (Unicode.not_isBlank_of_isWordChar inWord)
    rw [whole, trimStart, dropWhile_append_of_pos (all_eq_true.mp lead_blank),
      cons_append, dropWhile_cons_of_neg hs] at first
    cases Option.some.inj first
    revert letter
    decide

end Branch

structure PlainLine where
  text : Text
  not_isHeader : ¬IsHeader text := by decide
  not_hasBranch : ¬HasBranch text := by decide

end Lines

/-- A line by what it does to the open blocks. A block may be closed by an `end` and in any other
way. -/
inductive Line where
  | starting (header : Header)
  | branching (branch : Branch)
  | opening (line : PlainLine) (not_isEnding : ¬IsEnding line.text)
  | closing (line : PlainLine)
  | other (line : PlainLine) (not_isEnding : ¬IsEnding line.text)

namespace Line

def text : Line → Text
  | .starting header => header.text
  | .branching branch => branch.text
  | .opening line _ | .closing line | .other line _ => line.text

def depthAfter (depth : Nat) : Line → Nat
  | .starting _ | .branching _ | .opening _ _ => depth + 1
  | .closing _ => depth - 1
  | .other _ _ => depth

def storedAfter (stored : Nat) : Line → Nat
  | .starting header => header.storedAfter stored
  | _ => stored

def store? (stored : Nat) : Line → Option Text
  | .starting header => if header.isNamed then none else some (header.subject stored)
  | _ => none

/-- What becomes of a line, none where it stays as it is. Each block comes with the subject of its
switch if it is the body of one, the innermost block first. -/
def lowered (stored : Nat) (blocks : List (Option Text)) : Line → Option Text
  | .starting header => some (header.lowered stored)
  | .branching branch => (blocks.headD none).map branch.lowered
  | _ => none

def blocksAfter (stored : Nat) (blocks : List (Option Text)) : Line → List (Option Text)
  | .starting header => some (header.subject stored) :: blocks
  | .branching _ | .opening _ _ => none :: blocks
  | .closing _ => blocks.tail
  | .other _ _ => blocks

end Line

def applyAll (switches : Switches) (depth : Nat) : List Line → List (Option Text)
  | [] => []
  | line :: rest =>
    (switches.apply depth line.text).1 ::
      applyAll (switches.apply depth line.text).2 (line.depthAfter depth) rest

def lowerAll (stored : Nat) (blocks : List (Option Text)) : List Line → List (Option Text)
  | [] => []
  | line :: rest =>
    line.lowered stored blocks ::
      lowerAll (line.storedAfter stored) (line.blocksAfter stored blocks) rest

def subjectNames (stored : Nat) : List Line → List Text
  | [] => []
  | line :: rest => (line.store? stored).toList ++ subjectNames (line.storedAfter stored) rest

def AreInside (depth : Nat) : List Line → Prop
  | [] => True
  | line :: rest => 0 < depth ∧ AreInside (line.depthAfter depth) rest

instance decidableAreInside (depth : Nat) : (lines : List Line) → Decidable (AreInside depth lines)
  | [] => .isTrue trivial
  | line :: rest =>
    have := decidableAreInside (line.depthAfter depth) rest
    inferInstanceAs (Decidable (_ ∧ _))

section Step

variable {t : Text}

variable {switches : Switches} {opened : List OpenSwitch} {depth : Nat}
  {blocks : List (Option Text)}

/-- The switches whose bodies are open are listed at their levels, the innermost first. In front of
each there are only deeper ones, left over from blocks that were closed; none is listed at the level
of a block that is no body. -/
inductive Covers : List OpenSwitch → List (Option Text) → Prop where
  | nil {opened : List OpenSwitch} : Covers opened []
  | block {opened : List OpenSwitch} {blocks : List (Option Text)}
      (free : ∀ entry ∈ opened, entry.level ≠ blocks.length + 1) (outer : Covers opened blocks) :
      Covers opened (none :: blocks)
  | body {deeper opened : List OpenSwitch} {blocks : List (Option Text)} (subject : Text)
      (deep : ∀ entry ∈ deeper, blocks.length + 1 < entry.level) (outer : Covers opened blocks) :
      Covers (deeper ++ ⟨subject, blocks.length + 1⟩ :: opened) (some subject :: blocks)

/-- Entries that are too deep may be listed in front or not. -/
theorem Covers.append_deeper (covers : Covers opened blocks) {deeper : List OpenSwitch}
    (deep : ∀ e ∈ deeper, blocks.length < e.level) : Covers (deeper ++ opened) blocks := by
  induction covers with
  | nil => exact .nil
  | @block opened blocks free outer ih =>
    rw [length_cons] at deep
    refine .block (fun e mem => ?_) (ih fun e mem => ?_)
    · rcases mem_append.mp mem with inner | old
      · have := deep e inner
        omega
      · exact free e old
    · have := deep e mem
      omega
  | @body deeper' opened blocks subject deep' outer ih =>
    rw [← append_assoc]
    refine .body subject (fun e mem => ?_) outer
    rcases mem_append.mp mem with inner | old
    · exact deep e inner
    · exact deep' e old

theorem Covers.filter (covers : Covers opened blocks) {n : Nat} (shallow : blocks.length ≤ n) :
    Covers (opened.filter fun e => e.level ≤ n) blocks := by
  induction covers with
  | nil => exact .nil
  | @block opened blocks free outer ih =>
    rw [length_cons] at shallow
    exact .block (fun e mem => free e (mem_filter.mp mem).1) (ih (by omega))
  | @body deeper opened blocks subject deep outer ih =>
    rw [length_cons] at shallow
    rw [filter_append, filter_cons_of_pos (by simpa using shallow)]
    exact .body subject (fun e mem => deep e (mem_filter.mp mem).1) (ih (by omega))

theorem Covers.tail (covers : Covers opened blocks) : Covers opened blocks.tail := by
  cases covers with
  | nil => exact .nil
  | block free outer => exact outer
  | @body deeper opened blocks subject deep outer =>
    have mem : deeper ++ ⟨subject, blocks.length + 1⟩ :: opened =
        (deeper ++ [⟨subject, blocks.length + 1⟩]) ++ opened := by
      simp
    rw [mem]
    refine outer.append_deeper fun e inner => ?_
    rcases mem_append.mp inner with below | eq
    · have := deep e below
      omega
    · rw [mem_singleton.mp eq]
      exact Nat.lt_succ_self _

variable {subject : Text} {outer : List OpenSwitch}

theorem Covers.exists_cons (covers : Covers opened (some subject :: blocks))
    (shallow : ∀ e ∈ opened, e.level ≤ blocks.length + 1) :
    ∃ outer, opened = ⟨subject, blocks.length + 1⟩ :: outer ∧ Covers outer blocks := by
  cases covers with
  | @body deeper opened _ _ deep outer =>
    cases deeper with
    | nil => exact ⟨opened, rfl, outer⟩
    | cons e deeper =>
      have below := deep e (mem_cons_self ..)
      have above := shallow e (mem_cons_self ..)
      omega

theorem Covers.free (covers : Covers opened (none :: blocks)) :
    ∀ e ∈ opened, e.level ≠ blocks.length + 1 := by
  cases covers with
  | block free outer => exact free

abbrev kept (switches : Switches) (depth : Nat) : List OpenSwitch :=
  switches.opened.filter fun entry => entry.level ≤ depth

theorem level_le_of_mem_kept {e : OpenSwitch} (mem : e ∈ kept switches depth) :
    e.level ≤ depth := by
  simpa using (mem_filter.mp mem).2

theorem apply_header (header : Header) (hi : 0 < depth) :
    switches.apply depth header.text = (some (header.lowered switches.stored),
      ⟨⟨header.subject switches.stored, depth + 1⟩ :: switches.opened,
        header.storedAfter switches.stored⟩) := by
  obtain ⟨hit, first, lead, b⟩ := header.find?_text
  unfold apply
  rw [if_neg (by omega), first]
  dsimp only
  rw [lead, b]
  have filled := header.filled
  have alone := header.alone
  cases parts : Lexical.splitTop ';' header.body with
  | nil =>
    rw [parts] at filled
    exact absurd rfl filled
  | cons expression r =>
    rw [parts] at filled alone
    have whole : header.expression = trim expression := by
      rw [Header.expression, parts]
      rfl
    have nothing : trim (join [';'] r) = [] := by
      have hb := @trim_append (join [';'] r) [] alone rfl []
      rwa [append_nil, append_nil] at hb
    dsimp only
    rw [if_neg (by simpa using filled), nothing, ← whole]
    unfold start Header.lowered Header.subject Header.storedAfter Header.isNamed Header.variableName
    by_cases hn : Pattern.isPlainName header.expression
    · simp [hn]
    · simp [hn]

theorem apply_proceed (not_isHeader : ¬IsHeader t) (hi : 0 < depth) :
    switches.apply depth t = switches.proceed depth t := by
  have missed : switchPattern.find? t = none := by
    rw [← Option.not_isSome_iff_eq_none]
    exact fun hit => not_isHeader (isMatch_switchPattern.mp hit)
  unfold apply
  rw [if_neg (by omega), missed]

theorem proceed_of_free (free : ∀ e ∈ kept switches depth, e.level ≠ depth) :
    switches.proceed depth t = (none, ⟨kept switches depth, switches.stored⟩) := by
  unfold proceed
  dsimp only
  split
  · next missed => rw [kept, missed]
  · next current outer mem =>
    have ha : current.level ≠ depth := free current (by rw [kept, mem]; simp)
    rw [if_pos (by simpa using ha)]

theorem proceed_of_ending (mem : kept switches depth = ⟨subject, depth⟩ :: outer)
    (ending : IsEnding t) : switches.proceed depth t = (none, ⟨outer, switches.stored⟩) := by
  rw [kept] at mem
  unfold proceed
  rw [mem]
  dsimp only
  rw [if_neg (by simp), if_pos (isMatch_switchEndPattern.mpr ending)]

theorem proceed_of_body (mem : kept switches depth = ⟨subject, depth⟩ :: outer)
    (not_isEnding : ¬IsEnding t) :
    switches.proceed depth t = (branches? subject t, ⟨kept switches depth, switches.stored⟩) := by
  rw [kept] at mem ⊢
  unfold proceed
  rw [mem]
  dsimp only
  rw [if_neg (by simp), if_neg fun hm => not_isEnding (isMatch_switchEndPattern.mp hm)]

theorem Covers.exists_kept (covers : Covers switches.opened (some subject :: blocks)) :
    ∃ outer, kept switches (blocks.length + 1) = ⟨subject, blocks.length + 1⟩ :: outer ∧
      Covers outer blocks := by
  have still : Covers (kept switches (blocks.length + 1)) (some subject :: blocks) :=
    covers.filter (Nat.le_refl _)
  exact still.exists_cons fun e mem => level_le_of_mem_kept mem

theorem Covers.free_kept (covers : Covers switches.opened (none :: blocks)) :
    ∀ e ∈ kept switches (blocks.length + 1), e.level ≠ blocks.length + 1 := by
  intro e mem
  exact covers.free e (mem_filter.mp mem).1

/-- On a line that does not end a block, the switches that are not too deep are kept, and a branch
is compared with the subject of the innermost block. -/
theorem Covers.proceed_eq (covers : Covers switches.opened blocks) (hi : 0 < blocks.length)
    (not_isEnding : ¬IsEnding t) :
    switches.proceed blocks.length t = ((blocks.headD none).bind (branches? · t),
      ⟨kept switches blocks.length, switches.stored⟩) := by
  cases blocks with
  | nil => cases hi
  | cons innermost blocks =>
    cases innermost with
    | none => exact proceed_of_free covers.free_kept
    | some subject =>
      obtain ⟨outer, mem, -⟩ := covers.exists_kept
      exact proceed_of_body mem not_isEnding

theorem bind_branches?_eq_none (not_hasBranch : ¬HasBranch t) (subject? : Option Text) :
    subject?.bind (branches? · t) = none := by
  cases subject? with
  | none => rfl
  | some subject => exact if_neg fun hm => not_hasBranch (isMatch_casePattern.mp hm)

section

variable (covers : Covers switches.opened blocks)

include covers

theorem Covers.proceed_closing (hi : 0 < blocks.length) (not_hasBranch : ¬HasBranch t) :
    (switches.proceed blocks.length t).1 = none ∧
      Covers (switches.proceed blocks.length t).2.opened blocks.tail ∧
      (switches.proceed blocks.length t).2.stored = switches.stored := by
  by_cases ending : IsEnding t
  · cases blocks with
    | nil => cases hi
    | cons innermost blocks =>
      cases innermost with
      | none =>
        rw [length_cons, proceed_of_free covers.free_kept]
        exact ⟨rfl, (covers.filter (Nat.le_refl _)).tail, rfl⟩
      | some subject =>
        obtain ⟨outer, mem, r⟩ := covers.exists_kept
        rw [length_cons, proceed_of_ending mem ending]
        exact ⟨rfl, r, rfl⟩
  · rw [covers.proceed_eq hi ending]
    exact ⟨bind_branches?_eq_none not_hasBranch _, (covers.filter (Nat.le_refl _)).tail, rfl⟩

/-- Every line becomes what the open blocks ask for, and the open switches go on covering them. -/
theorem Covers.step (hi : 0 < blocks.length) (l : Line) :
    (switches.apply blocks.length l.text).1 = l.lowered switches.stored blocks ∧
      Covers (switches.apply blocks.length l.text).2.opened
        (l.blocksAfter switches.stored blocks) ∧
      (switches.apply blocks.length l.text).2.stored = l.storedAfter switches.stored := by
  have opens : Covers (kept switches blocks.length) (none :: blocks) := by
    refine .block (fun e mem => ?_) (covers.filter (Nat.le_refl _))
    have := level_le_of_mem_kept mem
    omega
  cases l with
  | starting header =>
    rw [Line.text, apply_header header hi]
    exact ⟨rfl, @body [] _ _ _ (by simp) covers, rfl⟩
  | branching branch =>
    rw [Line.text, apply_proceed branch.not_isHeader hi, covers.proceed_eq hi branch.not_isEnding]
    refine ⟨?_, opens, rfl⟩
    rw [Line.lowered]
    cases blocks.headD none with
    | none => rfl
    | some subject => exact branch.branches?_text subject
  | opening l not_isEnding =>
    rw [Line.text, apply_proceed l.not_isHeader hi, covers.proceed_eq hi not_isEnding]
    exact ⟨bind_branches?_eq_none l.not_hasBranch _, opens, rfl⟩
  | closing l =>
    rw [Line.text, apply_proceed l.not_isHeader hi]
    exact covers.proceed_closing hi l.not_hasBranch
  | other l not_isEnding =>
    rw [Line.text, apply_proceed l.not_isHeader hi, covers.proceed_eq hi not_isEnding]
    exact ⟨bind_branches?_eq_none l.not_hasBranch _, covers.filter (Nat.le_refl _), rfl⟩

theorem Covers.all {lines : List Line} (hi : AreInside blocks.length lines) :
    applyAll switches blocks.length lines = lowerAll switches.stored blocks lines := by
  induction lines generalizing switches blocks with
  | nil => rfl
  | cons l r ih =>
    obtain ⟨text, further, stored⟩ := covers.step hi.1 l
    have deep : (l.blocksAfter switches.stored blocks).length = l.depthAfter blocks.length := by
      cases l with
      | closing l => exact length_tail
      | _ => rfl
    have onward := ih further (deep ▸ hi.2)
    rw [applyAll, lowerAll, text, ← stored, ← deep, onward]

end

theorem covers_of_stale (stale : ∀ e ∈ opened, depth < e.level) :
    Covers opened (replicate depth none) := by
  induction depth with
  | zero => exact .nil
  | succ depth ih =>
    refine .block (fun e mem => ?_) (ih fun e mem => ?_)
    · have := stale e mem
      rw [length_replicate]
      omega
    · exact Nat.lt_of_succ_lt (stale e mem)

end Step

section Freshness

variable {stored : Nat} {lines : List Line}

theorem variableName_injective {m n : Nat} (eq : Header.variableName m = Header.variableName n) :
    m = n := by
  have digits : Nat.toDigits 10 m = Nat.toDigits 10 n := append_cancel_left eq
  rw [← Nat.ofDigitChars_ten_toDigits (n := m), digits, Nat.ofDigitChars_ten_toDigits]

theorem Line.stored_le_storedAfter (l : Line) : stored ≤ l.storedAfter stored := by
  cases l with
  | starting header =>
    rw [storedAfter, Header.storedAfter]
    split
    · exact Nat.le_refl _
    · exact Nat.le_succ _
  | _ => exact Nat.le_refl _

theorem Line.store?_eq_some {l : Line} {n : Text} (stores : l.store? stored = some n) :
    n = Header.variableName (stored + 1) ∧ l.storedAfter stored = stored + 1 := by
  cases l with
  | starting header =>
    rw [store?] at stores
    split at stores
    · cases stores
    · next unnamed =>
      rw [storedAfter, Header.storedAfter, if_neg unnamed, ← Option.some.inj stores,
        Header.subject, if_neg unnamed]
      exact ⟨rfl, rfl⟩
  | _ => cases stores

theorem exists_of_mem_subjectNames {name : Text} (stored' : name ∈ subjectNames stored lines) :
    ∃ n, stored < n ∧ name = Header.variableName n := by
  induction lines generalizing stored with
  | nil => cases stored'
  | cons l r ih =>
    rcases mem_append.mp stored' with here | later
    · obtain ⟨hn, -⟩ := Line.store?_eq_some (Option.mem_toList.mp here)
      exact ⟨stored + 1, Nat.lt_succ_self _, hn⟩
    · obtain ⟨n, above, hn⟩ := ih later
      exact ⟨n, Nat.lt_of_le_of_lt l.stored_le_storedAfter above, hn⟩

theorem nodup_subjectNames : (subjectNames stored lines).Nodup := by
  induction lines generalizing stored with
  | nil => exact nodup_nil
  | cons l r ih =>
    rw [subjectNames]
    cases stores : l.store? stored with
    | none => exact ih
    | some name =>
      obtain ⟨hn, after⟩ := Line.store?_eq_some stores
      rw [Option.toList_some, singleton_append, nodup_cons]
      refine ⟨fun again => ?_, ih⟩
      obtain ⟨n, above, eq⟩ := exists_of_mem_subjectNames again
      have := variableName_injective (hn.symm.trans eq)
      omega

end Freshness

/-- Whatever lines follow one another inside a block, however switches nest and however they are
closed, every line becomes what the stack of open blocks asks for: a branch that stands directly in
the body of a switch is compared with the subject of that switch, and no other branch is changed.
Switches that are left over from deeper blocks make no difference. The variables that subjects are
stored in are new ones, each different from the others and from those of before. -/
theorem branch_has_subject_of_its_switch {switches : Switches} {depth : Nat} {lines : List Line}
    (stale : ∀ entry ∈ switches.opened, depth < entry.level) (inside : AreInside depth lines) :
    applyAll switches depth lines =
        lowerAll switches.stored (replicate depth none) lines ∧
      (subjectNames switches.stored lines).Nodup ∧
      ∀ n ≤ switches.stored, Header.variableName n ∉ subjectNames switches.stored lines := by
  refine ⟨?_, nodup_subjectNames, fun n before again => ?_⟩
  · have all := @Covers.all switches _ (covers_of_stale stale) lines
    rw [length_replicate] at all
    exact all inside
  · obtain ⟨m, above, same⟩ := exists_of_mem_subjectNames again
    have := variableName_injective same
    omega

/-- A switch on an expression. Its first branch holds a branch that belongs to no switch and two
switches that are closed by an `until`; after all of them the subject is in force again. -/
theorem branch_has_subject_of_its_switch_nested :
    let one : Branch :=
      { lead := " ".toList, gap := " ".toList, value := "1".toList,
        space := " ".toList, tail := [] }
    let lines : List Line :=
      [.starting { lead := [], gap := " ".toList, body := "a + b;".toList }, .branching one,
        .branching one, .closing ⟨"end;".toList, by decide +kernel, by decide +kernel⟩,
        .starting { lead := [], gap := " ".toList, body := "key".toList }, .branching one,
        .closing ⟨"END".toList, by decide +kernel, by decide +kernel⟩,
        .closing ⟨"until x;".toList, by decide +kernel, by decide +kernel⟩,
        .starting { lead := [], gap := " ".toList, body := "f(1;2)".toList },
        .closing ⟨"until y;".toList, by decide +kernel, by decide +kernel⟩,
        .opening ⟨"repeat".toList, by decide +kernel, by decide +kernel⟩ (by decide +kernel),
        .closing ⟨"until z;".toList, by decide +kernel, by decide +kernel⟩,
        .closing ⟨"end;".toList, by decide +kernel, by decide +kernel⟩, .branching one]
    (∀ entry ∈ [OpenSwitch.mk "k".toList 4], 1 < entry.level) ∧ AreInside 1 lines ∧
      applyAll ⟨[⟨"k".toList, 4⟩], 2⟩ 1 lines =
        [some "LOCAL sw3 := a + b;\nCASE".toList, some " IF sw3 == 1 THEN".toList, none, none,
          some "CASE".toList, some " IF key == 1 THEN".toList, none, none,
          some "LOCAL sw4 := f(1;2);\nCASE".toList, none, none, none, none,
          some " IF sw3 == 1 THEN".toList] ∧
      subjectNames 2 lines = ["sw3".toList, "sw4".toList] := by
  intro one lines
  have stale : ∀ entry ∈ [OpenSwitch.mk "k".toList 4], 1 < entry.level := by decide
  have inside : AreInside 1 lines := by decide
  obtain ⟨whole, -⟩ := @branch_has_subject_of_its_switch ⟨[⟨"k".toList, 4⟩], 2⟩ 1 lines stale inside
  exact ⟨stale, inside, whole.trans (by decide +kernel), by decide +kernel⟩

end PrimePlus.Construct.Switches
