import PrimePlus.Proofs.DirectiveLine
import PrimePlus.Proofs.FilePlaces
import PrimePlus.Proofs.ParameterWords

/-!
What a defined call expands to.
-/

namespace PrimePlus

open List Alias.Identity Lexical Expression Pattern Alias.Table Alias Text

open Unicode
open Cursor (spanTo_between)
open Regex

namespace Text

theorem trim_of_word {word : Text} (all : ∀ c ∈ word, isWordChar c) : trim word = word :=
  trim_eq_self fun c mem => not_isBlank_of_isWordChar (all c mem)

theorem chunks_flatMap {fill : Text → Text} (kept : ∀ c, isWordChar c = false → fill [c] = [c])
    (t : Text) :
    chunks ((chunks t).flatMap fill) = (chunks t).flatMap fun chunk => chunks (fill chunk) := by
  induction t using runs_induction isWordChar with
  | nil => rfl
  | run w r ne all stops ih =>
    have opens : ((chunks r).flatMap fill).head?.any isWordChar = false := by
      cases r with
      | nil => rfl
      | cons c r =>
        have other : isWordChar c = false := stops
        rw [chunks_other other, flatMap_cons, kept c other]
        exact other
    rw [chunks_word ne all stops, flatMap_cons, flatMap_cons, chunks_append, ih]
    rw [opens, Bool.and_false]
  | other c r kind ih =>
    rw [chunks_other kind, flatMap_cons, flatMap_cons, kept c kind, singleton_append,
      chunks_other kind, ih]
    rfl

theorem chunks_of_mem {t chunk : Text} (mem : chunk ∈ chunks t) : chunks chunk = [chunk] :=
  splitBy_of_isChain (ne_nil_of_mem_splitBy mem) (isChain_of_mem_splitBy mem)

theorem mem_of_mem_chunks {c : Char} {chunk t : Text} (listed : chunk ∈ chunks t)
    (inside : c ∈ chunk) : c ∈ t := by
  have whole := mem_flatten.mpr ⟨chunk, listed, inside⟩
  rwa [chunks, flatten_splitBy] at whole

theorem mem_chunks_of_trim {t chunk : Text} (mem : chunk ∈ chunks (trim t)) : chunk ∈ chunks t := by
  obtain ⟨tail, hb, whole⟩ := exists_blanks_trimEnd (trimStart t)
  have hr : t.dropWhile isBlank = trim t ++ tail := whole
  have lead : isBlankText (t.takeWhile isBlank) := all_eq_true.mpr fun c => mem_takeWhile_imp
  rw [← takeWhile_append_dropWhile (p := isBlank) (l := t), hr, chunks_append,
    chunks_append, mem_append, mem_append]
  · exact .inr (.inl mem)
  · rw [any_head?_of_isBlankText (all_eq_true.mpr hb), Bool.and_false]
  · rw [any_getLast?_of_isBlankText lead, Bool.false_and]

theorem exists_trimEnd {front body : Text} (hc : trimEnd front = front) (lined : '\n' ∉ body) :
    ∃ tail, trimEnd (front ++ ' ' :: body) = front ++ tail ∧
      (tail = [] ∨ tail.head? = some ' ') ∧ '\n' ∉ tail ∧ trim tail = trim body := by
  cases hs : isBlankText body with
  | true =>
    have hb : isBlankText (' ' :: body) := hs
    have trimmed : trim (body ++ ([] ++ [])) = trim [] := trim_append hs rfl []
    rw [nil_append, append_nil] at trimmed
    refine ⟨[], ?_, .inl rfl, not_mem_nil, trimmed.symm⟩
    rw [trimEnd_append_of_isBlankText hb, hc, append_nil]
  | false =>
    refine ⟨' ' :: trimEnd body, ?_, .inr rfl, ?_, ?_⟩
    · rw [append_cons, trimEnd_append hs, ← append_cons]
    · rw [mem_cons, not_or]
      exact ⟨by decide, fun mem => lined (mem_of_mem_trimEnd mem)⟩
    · obtain ⟨blanks, hb, whole⟩ := exists_blanks_trimEnd body
      have left : trim ([' '] ++ (trimEnd body ++ [])) = _ := trim_append rfl rfl (trimEnd body)
      have right : trim ([] ++ (trimEnd body ++ blanks)) = _ :=
        trim_append rfl (all_eq_true.mpr hb) (trimEnd body)
      rw [← whole] at right
      rw [append_nil] at left
      exact left.trans right.symm

theorem trim_of_trim_append {u t : Text} (whole : trim (u ++ t) = u ++ t)
    (opens : ∀ c ∈ (u ++ t).head?, isBlank c = false) (hs : isBlankText t = false)
    (first : ∀ c ∈ t.head?, isBlank c = false) : trim t = t := by
  rw [trim, trimStart_eq_self opens, trimEnd_append hs] at whole
  rw [trim, trimStart_eq_self first, append_cancel_left whole]

theorem mem_join {sep c : Char} {parts : List Text} (mem : c ∈ join [sep] parts) :
    c = sep ∨ ∃ part ∈ parts, c ∈ part := by
  induction parts with
  | nil => cases mem
  | cons part r ih =>
    cases r with
    | nil => exact .inr ⟨part, mem_cons_self, by simpa [join] using mem⟩
    | cons next r =>
      rw [join_cons_cons, mem_append, mem_cons] at mem
      rcases mem with here | rfl | later
      · exact .inr ⟨part, mem_cons_self, here⟩
      · exact .inl rfl
      · obtain eq | ⟨o, known, hi⟩ := ih later
        · exact .inl eq
        · exact .inr ⟨o, mem_cons_of_mem part known, hi⟩

end Text

namespace Regex

open Cursor (between)

theorem find?_front_eq (r : Regex) (t : Text) : (seq front r).find? t =
    r.run (between [] t) [] fun stop groups => some ⟨between [] t, stop, groups⟩ := by
  rw [find?_front]
  rfl

theorem eq_of_matches_side {asked : Bool} {cur stop : Cursor} {groups final : Groups}
    (hm : Matches (if asked then edge else .empty) cur groups stop final) :
    stop = cur ∧ final = groups := by
  cases asked <;> cases hm <;> exact ⟨rfl, rfl⟩

theorem run_star_notNewline {α : Type} {next : Continuation α} {pre t : Text} {groups : Groups}
    {result : α} (lined : '\n' ∉ t) (goes : next (between (pre ++ t) []) groups = some result) :
    (star notNewline).run (between pre t) groups next = some result := by
  have all : ∀ c ∈ t, (c != '\n') := fun c mem =>
    bne_iff_ne.mpr (ne_of_mem_of_not_mem mem lined)
  have ended : (star notNewline).run (between pre (t ++ [])) groups next = some result :=
    run_star_of_longest all rfl goes
  rwa [append_nil] at ended

end Regex

namespace Directive

open Cursor (between)

theorem ofLine?_define {r : Text} (hs : r.head?.any isBlank = false) (lined : '\n' ∉ r) :
    ofLine? ("#define ".toList ++ r) = some (.definition, trim r) := by
  have here : linePattern.find? ("#define ".toList ++ r) =
      some ⟨between [] ("#define ".toList ++ r), between ("#define ".toList ++ r) [],
        [⟨2, between "#define ".toList r, between ("#define ".toList ++ r) []⟩,
          ⟨1, between ['#'] ("define ".toList ++ r), between "#define".toList (' ' :: r)⟩]⟩ := by
    rw [linePattern, Regex.all, foldr_cons, find?_front_eq]
    have spelt : "#define ".toList ++ r = '#' :: 'd' :: ("efine".toList ++ (' ' :: r)) := rfl
    simp only [foldr_cons]
    rw [spelt, run.eq_4, char, run_one_between, run.eq_4, run.eq_7, run.eq_4, run_one_between]
    refine run_star_of_longest (all_eq_true.mp (by decide +kernel))
      (show isWordChar ' ' = false by decide) ?_
    have gap : ∀ c ∈ [' '], isBlank c := all_eq_true.mp (by decide)
    refine run_star_of_longest gap hs ?_
    exact run_star_notNewline lined rfl
  have read : ofLine? ("#define ".toList ++ r) = some (DirectiveWord.ofText
      ((between ['#'] ("define".toList ++ ' ' :: r)).spanTo
        (between (['#'] ++ "define".toList) (' ' :: r))),
      trim ((between "#define ".toList r).spanTo (between ("#define ".toList ++ r) []))) := by
    rw [ofLine?, here]
    rfl
  have last := spanTo_between "#define ".toList r []
  rw [append_nil] at last
  rw [read, last]
  rfl

theorem exists_definedText {tail : Text} (tailed : tail = [] ∨ tail.head? = some ' ')
    (lined : '\n' ∉ tail) (start : Cursor) (front : Text) (groups : Groups) :
    ∃ hit : Match,
      (seq (opt (.seq blanks1 (.capture 3 (Regex.star notNewline))))
        (.seq back .empty)).run (between front tail) groups
          (fun stop groups => some ⟨start, stop, groups⟩) = some hit ∧
      (hit.groups = groups ∧ tail = [] ∨
        ∃ gap body, tail = gap ++ body ∧ isBlankText gap ∧ hit.groups =
          ⟨3, between (front ++ gap) body, between (front ++ gap ++ body) []⟩ :: groups) := by
  rcases tailed with rfl | hb
  · refine ⟨⟨start, between front [], groups⟩, ?_, .inl ⟨rfl, rfl⟩⟩
    rfl
  · have whole : tail.takeWhile isBlank ++ tail.dropWhile isBlank = tail :=
      takeWhile_append_dropWhile
    have gapped : tail.takeWhile isBlank ≠ [] := by
      obtain ⟨t, rfl⟩ := head?_eq_some_iff.mp hb
      exact cons_ne_nil _ _
    have blanks : ∀ c ∈ tail.takeWhile isBlank, isBlank c := fun c => mem_takeWhile_imp
    have hs : (tail.dropWhile isBlank).head?.any isBlank = false := by
      have stopped := head?_dropWhile_not isBlank tail
      cases first : (tail.dropWhile isBlank).head? with
      | none => rfl
      | some c =>
        rw [first] at stopped
        exact stopped
    generalize tail.takeWhile isBlank = gap at *
    generalize tail.dropWhile isBlank = body at *
    subst whole
    refine ⟨⟨start, between (front ++ gap ++ body) [], _ :: groups⟩, ?_,
      .inr ⟨gap, body, rfl, all_eq_true.mpr blanks, rfl⟩⟩
    rw [run.eq_4, run_opt, run.eq_4, blanks1, blank,
      run_plus_of_longest gapped blanks hs, Option.some_or]
    exact run_star_notNewline (mt (mem_append_right gap) lined) rfl

theorem exists_definition {name inner tail : Text}
    (opens : name.head?.any (fun c => c.isAlpha || c == '_')) (letters : ∀ c ∈ name, isWordChar c)
    (hi : ∀ c ∈ inner, (isWordChar c || isBlank c || c == ','))
    (tailed : tail = [] ∨ tail.head? = some ' ') (lined : '\n' ∉ tail) :
    ∃ hit, definitionPattern.find? (name ++ '(' :: (inner ++ ')' :: tail)) = some hit ∧
      hit.group 1 = name ∧ hit.group 2 = inner ∧ trim (hit.group 3) = trim tail := by
  obtain ⟨c, more, rfl⟩ : ∃ c more, name = c :: more := by
    cases name with
    | nil => cases opens
    | cons c more => exact ⟨c, more, rfl⟩
  obtain ⟨hit, taken, shape⟩ := exists_definedText tailed lined
    (between [] (c :: more ++ '(' :: (inner ++ ')' :: tail)))
    (c :: more ++ ['('] ++ inner ++ [')'])
    [⟨2, between (c :: more ++ ['(']) (inner ++ ')' :: tail),
        between (c :: more ++ ['('] ++ inner) (')' :: tail)⟩,
      ⟨1, between [] (c :: more ++ '(' :: (inner ++ ')' :: tail)),
        between (c :: more) ('(' :: (inner ++ ')' :: tail))⟩]
  refine ⟨hit, ?here, ?groups⟩
  case here =>
    rw [definitionPattern, Regex.all, foldr_cons, find?_front_eq]
    simp only [foldr_cons]
    rw [run.eq_4, run.eq_7, Regex.name, run.eq_4, letterOrUnderscore,
      cons_append, run_one_between, if_pos (show (c.isAlpha || c == '_') from opens)]
    refine run_star_of_longest ((forall_mem_cons.mp letters).2)
      (show isWordChar '(' = false by decide) ?_
    rw [run.eq_4, run_opt, Regex.all]
    simp only [foldr_cons]
    rw [run.eq_4, char, run_one_between, run.eq_4, run.eq_7]
    refine Option.or_eq_some_iff.mpr (.inl (run_star_of_longest hi ?_ ?_))
    · exact (show (isWordChar ')' || isBlank ')' || ')' == ',') = false by decide)
    · rw [run.eq_4, char, run_one_between]
      exact taken
  case groups =>
    have first := spanTo_between [] (c :: more) ('(' :: (inner ++ ')' :: tail))
    have second := spanTo_between (c :: more ++ ['(']) inner (')' :: tail)
    rcases shape with ⟨captured, rfl⟩ | ⟨gap, body, rfl, hb, captured⟩
    · simp only [Match.group, Match.group?, captured]
      exact ⟨first, second, rfl⟩
    · have third := spanTo_between (c :: more ++ ['('] ++ inner ++ [')'] ++ gap) body []
      rw [append_nil] at third
      simp only [Match.group, Match.group?, captured]
      refine ⟨first, second, ?_⟩
      have trimmed : trim (gap ++ (body ++ [])) = trim body := trim_append hb rfl body
      rw [append_nil] at trimmed
      rw [trimmed]
      exact congrArg trim third

theorem splitOn_join {names : List Text} (ne : names ≠ []) (ha : ∀ name ∈ names, ',' ∉ name) :
    Text.splitOn ',' (join [','] names) = names := by
  induction names with
  | nil => exact absurd rfl ne
  | cons name r ih =>
    obtain ⟨first, others⟩ := forall_mem_cons.mp ha
    cases r with
    | nil => simpa [join] using splitOn_of_notMem first
    | cons next r =>
      rw [join_cons_cons, splitOn_append_sep, splitOn_of_notMem first,
        ih (cons_ne_nil next r) others, singleton_append]

theorem listedNames_join {names : List Text} (ne : names ≠ [])
    (words : ∀ name ∈ names, name ≠ [] ∧ ∀ c ∈ name, isWordChar c) :
    listedNames (join [','] names) = names := by
  have ha : ∀ name ∈ names, ',' ∉ name := fun name mem comma =>
    absurd ((words name mem).2 ',' comma) (by decide)
  have trimmed : names.map trim = names :=
    (map_congr_left fun name mem => trim_of_word (words name mem).2).trans names.map_id
  rw [listedNames, splitOn_join ne ha, trimmed, filter_eq_self]
  intro name mem
  simpa using (words name mem).1

end Directive

def Expression.isConstant (t : Text) : Bool :=
  (evaluate (normalizeSized (trim t)).1).isOk

theorem Expression.foldWhole_of_not_isConstant {t : Text} (varies : isConstant t = false) :
    (foldWhole t).1 = t := by
  unfold foldWhole
  dsimp only
  split
  · rfl
  · split
    · rfl
    · split
      · next evaluated =>
        rw [isConstant, evaluated] at varies
        cases varies
      · rfl
      · rfl
      · rfl

theorem Expression.foldWhole_of_isConstant {t : Text} (ne : (trim t).isEmpty = false)
    (sized : (normalizeSized (trim t)).2 = []) (constant : isConstant t) :
    ∃ x, (foldWhole t).1 = Numeral.trimmed x defaultPlaces := by
  unfold isConstant at constant
  unfold foldWhole
  dsimp only
  rw [ne, sized]
  cases evaluated : evaluate (normalizeSized (trim t)).1 with
  | error fault =>
    rw [evaluated] at constant
    cases constant
  | ok result => exact ⟨result.1, rfl⟩

theorem Numeral.forall_mem_trimmed (x : Float) (places : Nat) :
    ∀ c ∈ trimmed x places, c.isDigit || "-.infNa".toList.contains c := by
  have written : ∀ c ∈ fixed x places, c.isDigit || "-.infNa".toList.contains c := by
    unfold fixed
    split
    · exact all_eq_true.mp (by decide)
    · split <;> exact all_eq_true.mp (by decide)
    · refine forall_mem_append.mpr ⟨by split <;> exact all_eq_true.mp (by decide), ?_⟩
      unfold placePoint
      dsimp only
      generalize Binary64.roundDiv _ _ = n
      have padded : ∀ c ∈ replicate (places + 1 - (ofNat n).length) '0' ++ ofNat n,
          c.isDigit || "-.infNa".toList.contains c := by
        refine forall_mem_append.mpr ⟨fun c mem => eq_of_mem_replicate mem ▸ rfl, fun c mem => ?_⟩
        rw [Nat.isDigit_of_mem_toDigits (by decide) (by decide) mem, Bool.true_or]
      split
      · exact padded
      · exact forall_mem_append.mpr ⟨fun c mem => padded c (mem_of_mem_take mem),
          forall_mem_cons.mpr ⟨by decide, fun c mem => padded c (mem_of_mem_drop mem)⟩⟩
  have back {d : Char} {t : Text} {p : Char → Prop} (all : ∀ c ∈ t, p c) :
      ∀ c ∈ dropBack d t, p c :=
    fun c mem => all c (mem_reverse.mp (dropWhile_subset _ (mem_reverse.mp mem)))
  unfold trimmed
  dsimp only
  split <;> split
  · exact all_eq_true.mp (by decide)
  · exact back (back written)
  · exact all_eq_true.mp (by decide)
  · exact written

namespace Alias

def callRegex (name : Text) : Regex :=
  .seq (nameRegexIn [] name) (.seq blanks (char '('))

open Cursor (between)

variable {name pre t : Text} {groups final : Groups} {stop : Cursor}

theorem head?_gap {gap : Text} (hb : ∀ c ∈ gap, isBlank c) (r : Text) :
    (gap ++ '(' :: r).head?.any isWordChar = false := by
  cases gap with
  | nil => exact (show isWordChar '(' = false by decide)
  | cons c gap => exact not_isWordChar_of_isBlank (hb c mem_cons_self)

section

variable (opens : name.head?.any isNameChar) (letters : ∀ c ∈ name, isWordChar c)

include opens letters

theorem matches_callRegex :
    Matches (callRegex name) (between pre t) groups stop final ↔
      ∃ gap r, t = name ++ (gap ++ '(' :: r) ∧ (∀ c ∈ gap, isBlank c) ∧
        pre.getLast?.any isWordChar = false ∧
        stop = between (pre ++ (name ++ (gap ++ ['(']))) r ∧ final = groups := by
  have ne : name ≠ [] := by
    rintro rfl
    cases opens
  have shape : callRegex name = .seq (.seq edge (.seq (Regex.text name)
      (if endsInWord name then edge else .empty))) (.seq blanks (char '(')) := by
    have starts : startsInWord name := opens
    have unqualified : nameRegexIn [] name = nameRegex false name := rfl
    rw [callRegex, unqualified, nameRegex, edged, starts]
    rfl
  rw [shape]
  constructor
  · intro hm
    cases hm with
    | seq hn behind =>
      obtain ⟨edge, spelt⟩ := matches_edge_seq.mp hn
      obtain ⟨read, after, rfl, eq, ends⟩ := (spans_text name).seq.mp spelt
      obtain rfl : name = read := eq.symm
      obtain ⟨rfl, rfl⟩ := eq_of_matches_side ends
      obtain ⟨gap, after, rfl, hb, paren⟩ := (spans_star isBlank).seq.mp behind
      obtain ⟨-, r, rfl, rfl, rfl, rfl⟩ := (spans_char '(' _ _ _ _ _).mp paren
      rw [any_head?_of_forall ne letters, bne_iff_ne, ne_eq, Bool.not_eq_true] at edge
      exact ⟨gap, r, rfl, hb, edge, by simp only [append_assoc], rfl⟩
  · rintro ⟨gap, r, rfl, hb, ha, rfl, rfl⟩
    have edge : (pre.getLast?.any isWordChar !=
        (name ++ (gap ++ '(' :: r)).head?.any isWordChar) := by
      rw [any_head?_of_forall ne letters, ha]
      rfl
    have side : Matches (if endsInWord name then Regex.edge else .empty)
        (between (pre ++ name) (gap ++ '(' :: r)) final
        (between (pre ++ name) (gap ++ '(' :: r)) final := by
      split
      · refine .assert ?_
        rw [Cursor.atEdge_between, any_getLast?_of_forall ne letters, head?_gap hb]
        rfl
      · exact .empty
    have hn := matches_edge_seq.mpr ⟨edge, (spans_text name).seq.mpr ⟨name, _, rfl, rfl, side⟩⟩
    have behind : Matches (.seq blanks (char '(')) _ _ _ _ :=
      (spans_star isBlank).seq.mpr ⟨gap, '(' :: r, rfl, hb,
        (spans_char '(' (pre ++ name ++ gap) _ final _ final).mpr ⟨['('], r, rfl, rfl, rfl, rfl⟩⟩
    simpa only [append_assoc] using hn.seq behind

theorem find?_callRegex_eq_none (absent : name ∉ chunks t) : (callRegex name).find? t = none := by
  have ne : name ≠ [] := by
    rintro rfl
    cases opens
  refine find?_eq_none fun pre after stop final whole hm => ?_
  obtain ⟨gap, r, rfl, hb, ha, -⟩ := (matches_callRegex opens letters).mp hm
  refine absent ?_
  rw [whole, chunks_append (by rw [ha, Bool.false_and]), chunks_word ne letters (head?_gap hb r)]
  exact mem_append_right _ mem_cons_self

theorem find?_callRegex (rest : Text) :
    (callRegex name).find? (name ++ '(' :: rest) =
      some ⟨between [] (name ++ '(' :: rest), between (name ++ ['(']) rest, []⟩ := by
  have flat : (callRegex name).IsFlat :=
    ⟨⟨isFlat_side _, isFlat_text name, isFlat_side _⟩, ⟨trivial, trivial⟩, trivial⟩
  have stands : Matches (callRegex name) (between [] (name ++ '(' :: rest)) []
      (between ([] ++ (name ++ ([] ++ ['(']))) rest) [] :=
    (matches_callRegex opens letters).mpr ⟨[], rest, rfl, by simp, rfl, rfl, rfl⟩
  obtain ⟨⟨start, stop, groups⟩, here⟩ := matchAt_of_matches flat stands
  obtain ⟨rfl, hm⟩ := matches_of_matchAt here
  obtain ⟨gap, tail, whole, hb, -, stops, missed⟩ := (matches_callRegex opens letters).mp hm
  -- blanks between the name and the parenthesis would have to start with the parenthesis
  have direct : gap = [] ∧ tail = rest := by
    have behind := append_cancel_left whole
    cases gap with
    | nil => exact ⟨rfl, (cons.inj behind).2.symm⟩
    | cons c gap =>
      have paren := hb c mem_cons_self
      rw [← (cons.inj behind).1] at paren
      exact absurd paren (by decide)
  obtain ⟨rfl, rfl⟩ := direct
  dsimp only at stops missed
  rw [stops, missed] at here
  exact @find?_of_first _ (callRegex name) [] _ here fun passed c ha stop final inside => by
    simp at inside

end

theorem expandFrom_of_missed {identity : Identity} {r : Regex} {cur : Cursor}
    (missed : r.findFrom cur.index cur.before cur.after = none) (loc : Location) (fuel : Nat) :
    expandFrom identity (.regex r) loc fuel cur = (cur.after, []) := by
  have nothing : Finder.findFrom cur.index cur.before cur.after (.regex r) = none := missed
  cases fuel with
  | zero => rfl
  | succ fuel =>
    rw [expandFrom, findCall?, breaksOff, nothing]
    rfl

end Alias

structure CallHead where
  name : Text
  parameters : List Text
  opens : name.head?.any (fun c => c.isAlpha || c == '_') = true
  letters : ∀ c ∈ name, isWordChar c = true
  /-- A single underscore in front of the name would be dropped. -/
  whole : name.head? = some '_' → name.tail.head? = some '_'
  called : parameters ≠ []
  distinct : parameters.Nodup
  words : ∀ parameter ∈ parameters, isWordName parameter = true

structure CallDefinition extends CallHead where
  body : Text
  lined : '\n' ∉ body
  /-- The body is not folded to a number, whatever its parameters are called. -/
  varies : isConstant body = false
  /-- The name is no word of the body. -/
  apart : name ∉ chunks body

namespace CallHead

open Cursor (between)

variable (head : CallHead)

def written : Text :=
  head.name ++ '(' :: (join [','] head.parameters ++ [')'])

def lineOf (body : Text) : Text :=
  "#define ".toList ++ head.written ++ ' ' :: body

def call (arguments : List Text) : Text :=
  head.name ++ '(' :: (join [','] arguments ++ [')'])

/-- A text with the words that are parameters replaced by arguments. -/
def filledFrom (real : Text) (arguments : List Text) : Text :=
  (chunks (trim real)).flatMap (renamed (head.parameters.zip (arguments.map trim)))

theorem name_ne_nil : head.name ≠ [] := by
  intro missed
  have opens := head.opens
  rw [missed] at opens
  cases opens

theorem mem_parameters {c : Char} (mem : c ∈ join [','] head.parameters) :
    isWordChar c ∨ c = ',' := by
  rcases mem_join mem with rfl | ⟨parameter, known, hi⟩
  · exact .inr rfl
  · exact .inl ((word_of_isWordName (head.words parameter known)).2 c hi)

variable {body real : Text}

theorem exists_trim_line (lined : '\n' ∉ body) : ∃ tail,
    trim (head.lineOf body) = "#define ".toList ++ head.written ++ tail ∧
    (tail = [] ∨ tail.head? = some ' ') ∧ '\n' ∉ tail ∧ trim tail = trim body := by
  have hc : trimEnd ("#define ".toList ++ head.written) =
      "#define ".toList ++ head.written := by
    have last : head.written = (head.name ++ '(' :: join [','] head.parameters) ++
        [')'] := by
      simp only [written, append_assoc, cons_append]
    rw [last, ← append_assoc, trimEnd_append (by decide)]
    rfl
  obtain ⟨tail, cut, r⟩ := exists_trimEnd hc lined
  refine ⟨tail, ?_, r⟩
  rw [← cut, trim, trimStart_eq_self]
  · rfl
  · intro c first
    cases first
    rfl

theorem exists_ofLine? (lined : '\n' ∉ body) : ∃ tail,
    Directive.ofLine? (trim (head.lineOf body)) = some (.definition, head.written ++ tail) ∧
    (tail = [] ∨ tail.head? = some ' ') ∧ '\n' ∉ tail ∧ trim tail = trim body := by
  obtain ⟨tail, cut, tailed, lined, trimmed⟩ := head.exists_trim_line lined
  refine ⟨tail, ?_, tailed, lined, trimmed⟩
  obtain ⟨c, more, shape⟩ := exists_cons_of_ne_nil head.name_ne_nil
  have first : (head.written ++ tail).head? = some c := by simp [written, shape]
  have vis : isBlank c = false :=
    not_isBlank_of_isWordChar (head.letters c (shape ▸ mem_cons_self))
  have noFeed : '\n' ∉ head.written ++ tail := by
    intro mem
    simp only [written, mem_append, mem_cons, not_mem_nil, or_false] at mem
    rcases mem with (hn | paren | hi | paren) | hv
    · exact absurd (head.letters _ hn) (by decide)
    · cases paren
    · exact absurd (head.mem_parameters hi) (by decide)
    · cases paren
    · exact lined hv
  have kept : trim (head.written ++ tail) = head.written ++ tail := by
    have again := trim_trim (head.lineOf body)
    rw [cut, append_assoc] at again
    refine trim_of_trim_append again ?_ ?_ (fun d here => ?_)
    · intro d here
      cases here
      rfl
    · rw [Bool.eq_false_iff]
      intro hb
      have paren : '(' ∈ head.written ++ tail := by simp [written]
      exact absurd (all_eq_true.mp hb '(' paren) (by decide)
    · rw [first] at here
      cases here
      exact vis
  rw [cut, append_assoc, Directive.ofLine?_define (by rw [first]; exact vis) noFeed, kept]

def identity (real : Text) (location : Location) : Identity :=
  { identifier := head.name,
    real := real,
    kind := .callable,
    parameters := head.parameters,
    scope := .level 0,
    location := location }

def table (real : Text) (maxPasses : Nat) (location : Location) : Table :=
  { empty maxPasses with
    entries := [⟨head.identity (trim real) location, .regex (callRegex head.name)⟩] }

theorem declaredAt_identity (site : Site) (loc : Location) :
    (head.identity real loc).declaredAt site =
      head.identity (trim real) site.location := by
  have settled : trim head.name = head.name := trim_of_word head.letters
  unfold declaredAt identity
  dsimp only [Option.map_none]
  rw [settled]
  split
  · next r shape =>
    have twice := head.whole (by rw [shape]; rfl)
    rw [shape, tail_cons] at twice
    rw [if_pos twice]
  · rfl

theorem parse_name : parse head.name = .name head.name := by
  unfold parse
  rw [trim_of_word head.letters]
  dsimp only
  split
  · next inner shape =>
    have opens := head.opens
    rw [shape] at opens
    exact absurd opens (by simp +decide)
  · rfl

theorem append_empty (maxPasses : Nat) (site : Site) (loc : Location) :
    (empty maxPasses).append site (head.identity real loc) =
      .ok (head.table real maxPasses site.location) := by
  have hn : ¬(trim (head.identity real loc).identifier).isEmpty := by
    rw [identity, trim_of_word head.letters, List.isEmpty_iff]
    exact head.name_ne_nil
  have hc : Entry.compile? [] (head.identity (trim real) site.location) =
      some ⟨head.identity (trim real) site.location, .regex (callRegex head.name)⟩ := by
    have called : (head.identity (trim real) site.location).isCall := by
      simpa [isCall, identity] using head.called
    have parsed : parse (head.identity (trim real) site.location).identifier =
      .name head.name := head.parse_name
    rw [Entry.compile?, finder?, parsed]
    rw [called]
    rfl
  have unused : (empty maxPasses).namespaceNames = [] := rfl
  unfold append
  rw [if_neg hn, declaredAt_identity]
  dsimp only
  rw [unused, hc]
  rfl

theorem read_line (fs : FileSystem) {st : DirectiveState} (running : st.isSkipping = false)
    (outside : st.embedded = []) {env : Environment} {maxPasses : Nat}
    (empty : env.aliases = .empty maxPasses) (lined : '\n' ∉ body) :
    ∃ after, Directive.read fs (head.lineOf body) st env = (.consumed, st, after) ∧
      after.aliases = head.table (foldWhole (trim body)).1 maxPasses env.location := by
  obtain ⟨tail, read, tailed, lined, trimmed⟩ := head.exists_ofLine? lined
  have hi (c : Char) (mem : c ∈ join [','] head.parameters) :
      (isWordChar c || isBlank c || c == ',') := by
    rcases head.mem_parameters mem with letter | rfl
    · rw [letter]
      rfl
    · decide
  obtain ⟨hit, here, hn, mem, text⟩ := Directive.exists_definition head.opens
    head.letters hi tailed lined
  have shape : head.written ++ tail = head.name ++
      '(' :: (join [','] head.parameters ++ ')' :: tail) := by
    simp only [written, append_assoc, cons_append, nil_append]
  refine ⟨Directive.define env (head.written ++ tail), ?_, ?_⟩
  · rw [Directive.read_of_not_isMarker fs _ st env outside
      (Directive.not_isMarker_of_ofLine? read), read]
    rw [running]
    rfl
  · unfold Directive.define
    rw [shape, here]
    dsimp only
    rw [hn, mem, text, trimmed]
    have resolved : env.aliases.resolve env.location (trim body) = (trim body, []) := by
      have unchanged : (isBlankText (trim body) ||
          (Table.empty maxPasses).entries.isEmpty) := Bool.or_true _
      rw [empty, resolve, if_pos unchanged]
    have names := Directive.listedNames_join head.called fun name known =>
      word_of_isWordName (head.words name known)
    unfold Environment.resolveAliases
    rw [resolved]
    unfold Environment.foldWhole reported
    rw [names]
    have taken := @append_empty head (foldWhole (trim body)).1 maxPasses env.site {}
    rw [← empty] at taken
    show (env.aliases.offer env.site (head.identity (foldWhole (trim body)).1 {})).1 = _
    rw [offer, taken]
    rfl

variable {head} {arguments : List Text}

theorem opens_isNameChar : head.name.head?.any isNameChar := by
  obtain ⟨c, first, letter⟩ := (Option.any_eq_true _ _).mp head.opens
  have hn : isNameChar c := by
    rw [Bool.or_eq_true, beq_iff_eq] at letter
    rcases letter with letter | rfl
    · exact isNameChar_of_isAlphanum (by simp [Char.isAlphanum, letter])
    · decide
  rw [first]
  exact hn

section

variable (nested : ∀ argument ∈ arguments, IsNested false argument)

include nested

theorem isNested_join : IsNested true (join [','] arguments) := by
  induction arguments with
  | nil => exact .nil
  | cons argument others ih =>
    obtain ⟨first, more⟩ := forall_mem_cons.mp nested
    cases others with
    | nil => simpa [join] using first.weaken
    | cons next others =>
      exact first.weaken.append (.char rfl (fun _ => rfl) (ih more))

theorem findCall?_call :
    findCall? (.regex (callRegex head.name)) (.start (head.call arguments)) =
      some ⟨[], join [','] arguments, between (head.call arguments) []⟩ := by
  have nested := isNested_join nested
  unfold call
  generalize join [','] arguments = a at nested ⊢
  have hit : findCall? (.regex (callRegex head.name))
      (between [] ([] ++ (head.name ++ '(' :: (a ++ [')'])))) = _ :=
    findCall?_eq (find?_callRegex head.opens_isNameChar head.letters _)
  have closes : closingOffset? 0 ('(' :: (a ++ [')'])) = some (a.length + 1) := by
    have opened (t : Text) : closingOffset? 0 ('(' :: t) = (closingOffset? 1 t).map (· + 1) := rfl
    rw [opened, nested.closingOffset?_append]
    simp [closingOffset?]
  rw [closes, if_neg (by decide)] at hit
  refine hit.trans ?_
  have whole : (a ++ [')']).take (a.length + 1) = a ++ [')'] := take_of_length_le (by simp)
  rw [Option.map_some, whole]
  simp [between, Nat.add_assoc, Nat.add_comm 1]

end

theorem notMem_chunks_filledFrom (apart : head.name ∉ chunks real)
    (absent : ∀ argument ∈ arguments, head.name ∉ chunks argument) :
    head.name ∉ chunks (head.filledFrom real arguments) := by
  intro mem
  rw [filledFrom, chunks_flatMap, mem_flatMap] at mem
  · obtain ⟨chunk, known, hi⟩ := mem
    rw [renamed] at hi
    cases hit : (head.parameters.zip (arguments.map trim)).find? fun e =>
        e.1 == chunk with
    | none =>
      rw [hit] at hi
      have eq : head.name = chunk := by simpa [chunks_of_mem known] using hi
      exact apart (mem_chunks_of_trim (eq ▸ known))
    | some e =>
      rw [hit] at hi
      obtain ⟨argument, given, trimmed⟩ := mem_map.mp (of_mem_zip (mem_of_find?_eq_some hit)).2
      refine absent argument given (mem_chunks_of_trim ?_)
      rw [trimmed]
      exact hi
  · intro c o
    have unnamed : (head.parameters.zip (arguments.map trim)).find?
        (fun e => e.1 == [c]) = none := by
      refine find?_eq_none.mpr fun e known eq => ?_
      have whole := word_of_isWordName (head.words _ (of_mem_zip known).1)
      rw [beq_iff_eq.mp eq] at whole
      exact Bool.false_ne_true (o.symm.trans (whole.2 c mem_cons_self))
    rw [renamed, unnamed]
    rfl

theorem mem_of_mem_filledFrom {c : Char}
    (mem : c ∈ head.filledFrom real arguments) :
    c ∈ real ∨ ∃ argument ∈ arguments, c ∈ argument := by
  obtain ⟨chunk, listed, written⟩ := mem_flatMap.mp mem
  rw [renamed] at written
  cases hit : (head.parameters.zip (arguments.map trim)).find? (fun e => e.1 == chunk) with
  | none =>
    rw [hit] at written
    exact .inl (mem_of_mem_chunks (mem_chunks_of_trim listed) written)
  | some e =>
    rw [hit] at written
    obtain ⟨argument, given, trimmed⟩ := mem_map.mp (of_mem_zip (mem_of_find?_eq_some hit)).2
    have inside : c ∈ trim argument := trimmed.symm ▸ show c ∈ e.2 from written
    exact .inr ⟨argument, given, dropWhile_subset _ (mem_of_mem_trimEnd inside)⟩

theorem expandCalls_call (nested : ∀ argument ∈ arguments, IsNested false argument)
    (absent : ∀ argument ∈ arguments, head.name ∉ chunks argument)
    (hs : isBlankText (join [','] arguments) = false)
    (count : arguments.length = head.parameters.length) (place loc : Location) :
    (expandCalls (head.identity (trim real) place) (.regex (callRegex head.name)) loc
      (head.call arguments)).1 = head.filledFrom real arguments := by
  -- behind the call there is nothing to be found
  have ended : (callRegex head.name).findFrom (head.call arguments).length
      (head.call arguments).reverse [] = none := by
    refine findFrom_eq_none fun passed r stop final whole hm => ?_
    obtain ⟨gap, behind, hn, -⟩ :=
      (matches_callRegex head.opens_isNameChar head.letters).mp hm
    rw [(append_eq_nil_iff.mp whole.symm).2] at hn
    exact head.name_ne_nil (append_eq_nil_iff.mp hn.symm).1
  have kept (fuel : Nat) :
      arguments.map (fun argument => expandFrom (head.identity (trim real) place)
          (.regex (callRegex head.name)) loc fuel (.start (trim argument))) =
        arguments.map fun argument => (trim argument, []) := by
    refine map_congr_left fun argument given => ?_
    exact @expandFrom_of_missed _ _ (.start _) (find?_callRegex_eq_none head.opens_isNameChar
      head.letters fun mem => absent argument given (mem_chunks_of_trim mem)) loc fuel
  have ne : arguments ≠ [] := by
    rintro rfl
    exact head.called (length_eq_zero_iff.mp count.symm)
  have parted : splitArguments (join [','] arguments) = arguments := by
    rw [splitArguments_eq, hs, if_neg Bool.false_ne_true, splitTop_join ne nested]
  rw [expandCalls, expandFrom, findCall?_call nested]
  dsimp only
  rw [parted, kept, @expandFrom_of_missed _ _ (between _ []) ended, map_map]
  have applied : applyCall (head.identity (trim real) place) loc (arguments.map trim) =
      (head.filledFrom real arguments, []) := by
    have length : (arguments.map trim).length =
        (head.identity (trim real) place).parameters.length := by
      rw [length_map]
      exact count
    rw [applyCall, if_pos length, substitute_eq]
    · rfl
    · rw [map_fst_zip length.ge]
      exact head.distinct
    · exact fun e known => head.words e.1 (of_mem_zip known).1
  have firsts : (Prod.fst ∘ fun argument : Text => (trim argument, ([] : List Diagnostic))) =
      trim := rfl
  rw [firsts, applied]
  exact append_nil _

theorem quote_notMem_call (free : ∀ argument ∈ arguments, '"' ∉ argument) :
    '"' ∉ head.call arguments := by
  intro listed
  simp only [call, mem_append, mem_cons, not_mem_nil, or_false] at listed
  rcases listed with named | paren | inside | paren
  · exact absurd (head.letters _ named) (by decide)
  · cases paren
  · rcases mem_join inside with comma | ⟨argument, given, within⟩
    · cases comma
    · exact free argument given within
  · cases paren

theorem resolve_call (apart : head.name ∉ chunks real)
    (count : arguments.length = head.parameters.length)
    (nested : ∀ argument ∈ arguments, IsNested false argument)
    (free : ∀ argument ∈ arguments, '"' ∉ argument)
    (absent : ∀ argument ∈ arguments, head.name ∉ chunks argument)
    (shown : ∀ argument, arguments = [argument] → isBlankText argument = false)
    (maxPasses : Nat) (place location : Location) :
    ((head.table real maxPasses place).resolve location (head.call arguments)).1 =
      head.filledFrom real arguments := by
  have held : isBlankText (join [','] arguments) = false := by
    match arguments with
    | [] => exact absurd (length_eq_zero_iff.mp count.symm) head.called
    | [argument] => simpa [join] using shown argument rfl
    | argument :: next :: rest =>
      rw [Bool.eq_false_iff, join_cons_cons]
      intro blank
      exact absurd (all_eq_true.mp blank ',' (by simp)) (by decide)
  have once (t : Text) : ((head.table real maxPasses place).resolveOnce location t).1 =
      (Entry.resolve location ⟨head.identity (trim real) place,
        .regex (callRegex head.name)⟩ t).1 := by
    rfl
  have called : (head.identity (trim real) place).isCall = true := by
    simpa [isCall, identity] using head.called
  refine resolve_of_resolveOnce ?_ (cons_ne_nil _ _) ?_
    (literals_of_quoteFree (quote_notMem_call free)) ?_ ?_
  · exact Nat.le_max_left 1 maxPasses
  · rw [Bool.eq_false_iff]
    intro blank
    exact absurd (all_eq_true.mp blank '(' (by simp [call])) (by decide)
  · have found : (callRegex head.name).isMatch (head.call arguments) = true := by
      rw [isMatch, call, find?_callRegex head.opens_isNameChar head.letters]
      rfl
    have found' : (Finder.regex (callRegex head.name)).isMatch
        (head.call arguments) = true := found
    rw [once, Entry.resolve, found', called]
    exact expandCalls_call nested absent held count place location
  · have missed : (Finder.regex (callRegex head.name)).isMatch
        (head.filledFrom real arguments) = false := by
      have search := find?_callRegex_eq_none head.opens_isNameChar head.letters
        (notMem_chunks_filledFrom apart absent)
      exact congrArg Option.isSome search
    rw [once, Entry.resolve_of_absent missed]

end CallHead

namespace CallDefinition

variable (definition : CallDefinition)

def line : Text :=
  definition.lineOf definition.body

def filled (arguments : List Text) : Text :=
  definition.filledFrom definition.body arguments

end CallDefinition

/-- A call of a defined name becomes the body of the definition, in which every word that is a
parameter is the argument for it without the blanks around it. The arguments are without quotes,
their brackets are nested with no comma outside them, and neither they nor the body have the name as
a word; a single argument must not be blank. The definition is read outside embedded and skipped
regions when nothing else is declared. -/
theorem defined_call_expands (definition : CallDefinition) (files : FileSystem)
    (state : DirectiveState) (env : Environment) (maxPasses : Nat) (location : Location)
    (arguments : List Text) (running : state.isSkipping = false) (outside : state.embedded = [])
    (empty : env.aliases = .empty maxPasses)
    (count : arguments.length = definition.parameters.length)
    (nested : ∀ argument ∈ arguments, IsNested false argument)
    (free : ∀ argument ∈ arguments, '"' ∉ argument)
    (absent : ∀ argument ∈ arguments, definition.name ∉ chunks argument)
    (shown : ∀ argument, arguments = [argument] → isBlankText argument = false) :
    ∃ after, Directive.read files definition.line state env = (.consumed, state, after) ∧
      (after.aliases.resolve location (definition.call arguments)).1 =
        definition.filled arguments := by
  obtain ⟨after, read, declared⟩ :=
    definition.read_line files running outside empty definition.lined
  have kept : (foldWhole (trim definition.body)).1 = trim definition.body := by
    refine foldWhole_of_not_isConstant ?_
    rw [isConstant, trim_trim]
    exact definition.varies
  have apart : definition.name ∉ chunks (trim definition.body) := fun listed =>
    definition.apart (mem_chunks_of_trim listed)
  refine ⟨after, read, ?_⟩
  rw [declared, kept, CallHead.resolve_call apart count nested free absent shown]
  rw [CallHead.filledFrom, trim_trim]
  rfl

/-- Two parameters are exchanged: an argument is named like a parameter, and one is a call with a
comma. -/
theorem defined_call_expands_exchange :
    let line := "#define F(x,xy) xy+x*xyz".toList
    ∃ after, Directive.read {} line {} (.start {}) = (.consumed, {}, after) ∧
      (after.aliases.resolve default "F( xy ,g(1,[x]))".toList).1 = "g(1,[x])+xy*xyz".toList := by
  let definition : CallDefinition := {
    name := "F".toList, parameters := ["x".toList, "xy".toList], body := "xy+x*xyz".toList
    opens := by decide, letters := all_eq_true.mp (by decide +kernel), whole := by decide
    called := by decide
    distinct := by decide, words := by decide +kernel, lined := by decide
    varies := by decide +kernel, apart := by decide +kernel }
  have filled : definition.filled [" xy ".toList, "g(1,[x])".toList] =
      "g(1,[x])+xy*xyz".toList := by
    decide +kernel
  have listed : IsNested true "1,[x]".toList :=
    .char rfl (by decide) (.char rfl (by decide) (@IsNested.enclosed _ '[' ']' ['x'] [] (by decide)
      (.char rfl (by decide) .nil) .nil))
  have nested : ∀ argument ∈ [" xy ".toList, "g(1,[x])".toList], IsNested false argument := by
    refine forall_mem_cons.mpr ⟨?_, forall_mem_singleton.mpr ?_⟩
    · exact .char rfl (by decide) (.char rfl (by decide) (.char rfl (by decide)
        (.char rfl (by decide) .nil)))
    · exact .char rfl (by decide)
        (@IsNested.enclosed _ '(' ')' "1,[x]".toList [] (by decide) listed .nil)
  obtain ⟨after, read, resolved⟩ := defined_call_expands definition {} {} (.start {}) _ default
    [" xy ".toList, "g(1,[x])".toList] rfl rfl rfl rfl nested (by decide) (by decide +kernel)
    (fun argument single => by cases single)
  exact ⟨after, read, resolved.trans filled⟩

/-- The body is folded before it is stored, although the parameter is a word of it. -/
theorem parameter_is_folded :
    let read := Directive.read {} "#define F(e) e+1".toList {} (.start {})
    (read.2.2.aliases.resolve default "F(y)".toList).1 ≠ "y+1".toList := by
  let head : CallHead := {
    name := "F".toList, parameters := ["e".toList]
    opens := by decide, letters := all_eq_true.mp (by decide +kernel), whole := by decide
    called := by decide, distinct := by decide, words := by decide +kernel }
  obtain ⟨after, read, declared⟩ := @CallHead.read_line head "e+1".toList {} {} rfl rfl
    (.start {}) _ rfl (by decide)
  obtain ⟨x, folded⟩ := @foldWhole_of_isConstant (trim "e+1".toList) (by decide) (by decide +kernel)
    (by decide +kernel)
  have written := Numeral.forall_mem_trimmed x defaultPlaces
  have apart : head.name ∉ chunks (Numeral.trimmed x defaultPlaces) := fun mem =>
    absurd (written 'F' (mem_of_mem_chunks mem mem_cons_self)) (by decide)
  show ((Directive.read {} (head.lineOf "e+1".toList) {} (.start {})).2.2.aliases.resolve default
    (head.call ["y".toList])).1 ≠ _
  rw [read, declared, folded, @CallHead.resolve_call head _ ["y".toList] apart rfl
    (forall_mem_singleton.mpr (.char rfl (by decide) .nil)) (by decide) (by decide +kernel)
    (fun argument single => by cases single; decide)]
  intro eq
  have plus : '+' ∈ "y+1".toList := by decide
  rw [← eq] at plus
  rcases CallHead.mem_of_mem_filledFrom plus with stored | ⟨argument, given, inside⟩
  · exact absurd (written '+' stored) (by decide)
  · rw [mem_singleton.mp given] at inside
    exact absurd inside (by decide)

end PrimePlus
