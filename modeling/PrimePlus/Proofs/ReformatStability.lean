import Mathlib.Data.List.DropRight
import PrimePlus.Proofs.BlockBalance
import PrimePlus.Proofs.LaidStatements

/-!
Laying out a program that is laid out already.
-/

namespace PrimePlus.Text

open Unicode (isBlank)

theorem trimEnd_trimEnd (t : Text) : trimEnd (trimEnd t) = trimEnd t := by
  rw [trimEnd, trimEnd, List.reverse_reverse, List.dropWhile_idempotent]

theorem takeWhile_trimEnd {accepts : Char → Bool}
    (missed : ∀ c, isBlank c → accepts c = false) (t : Text) :
    (trimEnd t).takeWhile accepts = t.takeWhile accepts := by
  obtain ⟨tail, hb, whole⟩ := exists_blanks_trimEnd t
  have missed : tail.takeWhile accepts = [] := by
    rw [List.takeWhile_eq_nil_iff]
    intro filled
    rw [Bool.not_eq_true]
    exact missed _ (hb _ (List.getElem_mem filled))
  conv_rhs => rw [whole]
  rw [List.takeWhile_append, missed, List.append_nil]
  split
  · next all => exact (List.takeWhile_prefix accepts).eq_of_length all
  · rfl

end PrimePlus.Text

namespace PrimePlus.Program

open List Layout Lexical.Nesting Text

open Lexical (isMarked)
open Unicode (isBlank)

variable {line : Text}

section Layout

variable {width : Nat} {statements : List Text}

def StartsVisibly (s : Text) : Prop :=
  ∃ c more, s = c :: more ∧ isBlank c = false

variable {s : Text}

section

variable (vis : StartsVisibly s)

include vis

theorem StartsVisibly.head : ∀ c ∈ s.head?, isBlank c = false := by
  obtain ⟨c, more, rfl, shown⟩ := vis
  rintro d ⟨⟩
  exact shown

theorem StartsVisibly.not_isBlankText : isBlankText s = false := by
  obtain ⟨c, more, rfl, shown⟩ := vis
  simp [isBlankText, shown]

theorem StartsVisibly.trimEnd : StartsVisibly (trimEnd s) := by
  obtain ⟨c, more, rfl, shown⟩ := vis
  cases hb : isBlankText more with
  | true =>
    refine ⟨c, [], ?_, shown⟩
    rw [← singleton_append, trimEnd_append_of_isBlankText hb]
    simp [trimEnd, shown]
  | false =>
    exact ⟨c, trimEnd more, trimEnd_append hb [c], shown⟩

theorem StartsVisibly.trimStart_append {lead : Text} (hb : ∀ c ∈ lead, isBlank c) :
    trimStart (lead ++ s) = s := by
  obtain ⟨c, more, rfl, shown⟩ := vis
  rw [trimStart, dropWhile_append_of_pos hb, dropWhile_cons_of_neg (by simp [shown])]

theorem StartsVisibly.unglued : StartsVisibly (Program.unglued s) := by
  obtain ⟨c, more, rfl, shown⟩ := vis
  obtain ⟨r, eq⟩ := head?_eq_some_iff.mp (head?_unglued (c :: more))
  exact ⟨c, r, eq, shown⟩

end

variable {β : Type} {c : Char} {read : Text → List β} {item : Text → β}

theorem isBlank_of_mem_indent {level : Nat} (mem : c ∈ indent width level) : isBlank c := by
  rw [eq_of_mem_replicate mem]
  exact isBlank_space

theorem indentLevel_trimEnd (vis : StartsVisibly s) (depth : Nat) :
    (ofLine (trimEnd s)).indentLevel depth = (ofLine s).indentLevel depth := by
  rw [indentLevel_eq vis.trimEnd.head,
    indentLevel_eq vis.head, Lexical.isOutdented, Lexical.isOutdented,
    takeWhile_trimEnd fun c hb => Unicode.not_isNameChar_of_isBlank hb]

theorem layStatements_append (d : Nat) (u r : List Text) :
    (layStatements width d (u ++ r)).1 = (layStatements width d u).1 ++
      (layStatements width (layStatements width d u).2 r).1 := by
  induction u generalizing d with
  | nil => rfl
  | cons stmt u ih =>
    rw [cons_append, layStatements]
    dsimp only
    rw [ih]
    simp [layStatements]

theorem flatMap_layStatements (empty : read [] = [])
    (each : ∀ s ∈ statements, ∀ level, read (indent width level ++ s) = [item s])
    (d : Nat) : (layStatements width d statements).1.flatMap read = statements.map item := by
  induction statements generalizing d with
  | nil => rfl
  | cons stmt r ih =>
    obtain ⟨first, others⟩ := forall_mem_cons.mp each
    rw [layStatements]
    dsimp only
    rw [cons_append, flatMap_cons, flatMap_append, ih others, first]
    split <;> simp [empty]

theorem mem_layStatements {d : Nat} (mem : line ∈ (layStatements width d statements).1) :
    line = [] ∨ ∃ level, ∃ s ∈ statements, line = indent width level ++ s := by
  induction statements generalizing d with
  | nil => cases mem
  | cons stmt r ih =>
    rcases mem_cons.mp mem with rfl | mem
    · exact .inr ⟨_, stmt, mem_cons_self, rfl⟩
    · rcases mem_append.mp mem with gap | later
      · split at gap
        · exact .inl (mem_singleton.mp gap)
        · cases gap
      · rcases ih later with empty | ⟨level, s, member, eq⟩
        · exact .inl empty
        · exact .inr ⟨level, s, mem_cons_of_mem stmt member, eq⟩

def lay (width : Nat) (statements : List Text) : Text :=
  trimEnd (join ['\n'] (layStatements width 0 statements).1) ++ ['\n']

def trimLast : List Text → List Text
  | [] => []
  | [s] => [trimEnd s]
  | s :: next :: rest => s :: trimLast (next :: rest)

@[simp] theorem trimLast_concat (u : List Text) (last : Text) :
    trimLast (u ++ [last]) = u ++ [trimEnd last] := by
  induction u with
  | nil => rfl
  | cons s u ih =>
    cases u with
    | nil => rfl
    | cons next u => exact congrArg (s :: ·) ih

theorem mem_trimLast (mem : s ∈ trimLast statements) :
    s ∈ statements ∨ ∃ last ∈ statements, s = trimEnd last := by
  rcases eq_nil_or_concat statements with rfl | ⟨u, last, rfl⟩
  · cases mem
  · rw [concat_eq_append] at mem ⊢
    rw [trimLast_concat] at mem
    rcases mem_append.mp mem with inner | last'
    · exact .inl (mem_append_left _ inner)
    · exact .inr ⟨last, by simp, mem_singleton.mp last'⟩

theorem forall_mem_trimLast {p : Text → Prop} (keeps : ∀ s, p s → p (trimEnd s))
    (all : ∀ s ∈ statements, p s) : ∀ s ∈ trimLast statements, p s := by
  intro s mem
  rcases mem_trimLast mem with inner | ⟨last, member, rfl⟩
  · exact all s inner
  · exact keeps last (all last member)

variable (vis : ∀ s ∈ statements, StartsVisibly s) (free : ∀ s ∈ statements, '\n' ∉ s ∧ '\r' ∉ s)

include vis in
theorem visible_trimLast : ∀ s ∈ trimLast statements, StartsVisibly s :=
  forall_mem_trimLast (fun _ => StartsVisibly.trimEnd) vis

include free in
theorem free_trimLast : ∀ s ∈ trimLast statements, '\n' ∉ s ∧ '\r' ∉ s :=
  forall_mem_trimLast (fun _ => And.imp (mt mem_of_mem_trimEnd) (mt mem_of_mem_trimEnd)) free

theorem mem_lay (mem : c ∈ lay width statements) :
    c = '\n' ∨ c = ' ' ∨ ∃ s ∈ statements, c ∈ s := by
  rcases mem_append.mp mem with inner | feed
  · have hi : c ∈ join ['\n'] (layStatements width 0 statements).1 ++ ['\n'] :=
      mem_append_left _ (mem_of_mem_trimEnd inner)
    by_cases filled : (layStatements width 0 statements).1 = []
    · rw [filled] at hi
      exact .inl (mem_singleton.mp hi)
    · rw [join_append_newline filled] at hi
      obtain ⟨line, written, hi⟩ := mem_flatMap.mp hi
      rcases mem_append.mp hi with hi | feed
      · rcases mem_layStatements written with rfl | ⟨level, s, member, rfl⟩
        · cases hi
        · rcases mem_append.mp hi with lead | hi
          · exact .inr (.inl (eq_of_mem_replicate lead))
          · exact .inr (.inr ⟨s, member, hi⟩)
      · exact .inl (mem_singleton.mp feed)
  · exact .inl (mem_singleton.mp feed)

theorem lay_concat (u : List Text) {last : Text} (vis : StartsVisibly last) :
    lay width (u ++ [last]) = ofLines ((layStatements width 0 u).1 ++
      [indent width ((ofLine last).indentLevel (layStatements width 0 u).2) ++ trimEnd last]) := by
  obtain ⟨gap, hb, shape⟩ : ∃ gap, (∀ line ∈ gap, isBlankText line) ∧
      (layStatements width 0 (u ++ [last])).1 = (layStatements width 0 u).1 ++
        (indent width ((ofLine last).indentLevel (layStatements width 0 u).2) ++ last) :: gap := by
    rw [layStatements_append, layStatements]
    dsimp only
    split
    · exact ⟨[[]], by simp [isBlankText], rfl⟩
    · exact ⟨[], by simp, rfl⟩
  generalize indent width _ = lead at shape ⊢
  have shown : isBlankText (lead ++ last) = false := by
    rw [isBlankText_append, vis.not_isBlankText, Bool.and_false]
  rw [lay, trimEnd_join, shape, trimEnd_ofLines shown hb, trimEnd_append vis.not_isBlankText]

include vis in
theorem lay_trimLast : lay width (trimLast statements) = lay width statements := by
  rcases eq_nil_or_concat statements with rfl | ⟨front, last, rfl⟩
  · rfl
  · have last_visible : StartsVisibly last := vis last (by simp)
    rw [concat_eq_append, trimLast_concat, lay_concat front last_visible.trimEnd,
      lay_concat front last_visible, indentLevel_trimEnd last_visible, trimEnd_trimEnd]

include vis free

theorem flatMap_lines_lay (empty : read [] = [])
    (each : ∀ s ∈ trimLast statements, ∀ level, read (indent width level ++ s) = [item s]) :
    (lines (lay width statements)).flatMap read = (trimLast statements).map item := by
  rcases eq_nil_or_concat statements with rfl | ⟨u, last, rfl⟩
  · have feed : lines (lay width []) = [[]] := rfl
    rw [feed, flatMap_singleton, empty]
    rfl
  · rw [concat_eq_append] at each vis free ⊢
    rw [trimLast_concat] at each ⊢
    have isLine (level : Nat) {s : Text} (free : '\n' ∉ s ∧ '\r' ∉ s) :
        IsLine (indent width level ++ s) := by
      have hi {c : Char} (o : c ≠ ' ') (absent : c ∉ s) : c ∉ indent width level ++ s := by
        intro mem
        rcases mem_append.mp mem with lead | mem
        · exact o (eq_of_mem_replicate lead)
        · exact absent mem
      refine ⟨hi (by decide) free.1, fun last => ?_⟩
      exact hi (by decide) free.2 (mem_of_getLast? last)
    have areLines : ∀ line ∈ (layStatements width 0 u).1 ++ [indent width
        ((ofLine last).indentLevel (layStatements width 0 u).2) ++ trimEnd last], IsLine line := by
      refine forall_mem_append.mpr ⟨fun line mem => ?_, forall_mem_singleton.mpr
        (isLine _ (free_trimLast free _ (by simp)))⟩
      rcases mem_layStatements mem with rfl | ⟨level, s, member, rfl⟩
      · exact ⟨by simp, by simp⟩
      · exact isLine level (free s (mem_append_left _ member))
    have ls := lines_ofLines_append areLines []
    rw [append_nil, ← lay_concat u (vis last (by simp))] at ls
    rw [ls]
    simp only [lines, append_nil, flatMap_append, flatMap_singleton, map_append, map_cons, map_nil]
    rw [flatMap_layStatements empty (forall_mem_append.mp each).1, each _ (by simp)]

def shown (line : Text) : List Text :=
  if isBlankText line then [] else [trimStart line]

/-- Statements are read off their layout, but for the blanks at the end of the last one. -/
theorem flatMap_shown_lay :
    (lines (lay width statements)).flatMap shown = trimLast statements := by
  have each {s : Text} (vis : StartsVisibly s) (level : Nat) :
      shown (indent width level ++ s) = [s] := by
    rw [shown, isBlankText_append, vis.not_isBlankText, Bool.and_false,
      vis.trimStart_append fun c => isBlank_of_mem_indent]
    rfl
  have read : (lines (lay width statements)).flatMap shown = (trimLast statements).map id :=
    flatMap_lines_lay vis free rfl fun s mem => each (visible_trimLast vis s mem)
  rw [read, map_id]

end Layout

section Program

variable {t : Text}

theorem startsWithWord_of_notMem (hu : '#' ∉ line) {w : String}
    (signed : w.toList.head? = some '#') : startsWithWord line w = false := by
  rw [Bool.eq_false_iff]
  intro starts
  obtain ⟨more, spelt⟩ := head?_eq_some_iff.mp signed
  have hi := (List.isPrefixOf_iff_prefix.mp starts).subset (show '#' ∈ w.toList by simp [spelt])
  exact hu ((dropWhile_sublist _).subset hi)

theorem segmentsFrom_of_unmarked {ls : List Text} (hu : ∀ line ∈ ls, '#' ∉ line)
    (filled : ls ≠ []) : segmentsFrom false ls = [.code (ofLines ls)] := by
  induction ls with
  | nil => exact absurd rfl filled
  | cons line r ih =>
    obtain ⟨absent, others⟩ := forall_mem_cons.mp hu
    have opens : opensBlock line = false := by
      rw [opensBlock, startsWithWord_of_notMem absent (by decide),
        startsWithWord_of_notMem absent (by decide)]
      rfl
    have pragma' : startsWithWord line "#pragma" = false :=
      startsWithWord_of_notMem absent (by decide)
    have step : segmentsFrom false (line :: r) = consCode line (segmentsFrom false r) := by
      rw [segmentsFrom, opens, pragma']
      rfl
    rw [step]
    cases r with
    | nil => simp [segmentsFrom, consCode]
    | cons next r =>
      rw [ih others (by simp), consCode, ofLines_cons line]

/-- The lines of a program as they are laid out: line feeds are put behind its lines, which are then
read once more. -/
def laidLines (t : Text) : List Text :=
  lines (ofLines (lines t))

theorem laidLines_eq (noReturn : '\r' ∉ t) : laidLines t = lines t := by
  have isLine : ∀ line ∈ lines t, IsLine line := fun line mem =>
    ⟨newline_notMem_of_mem_lines mem,
      fun last => noReturn (subset_of_mem_lines mem (mem_of_getLast? last))⟩
  have ls := lines_ofLines_append isLine []
  rwa [append_nil, lines, append_nil] at ls

theorem reformat_eq_lay (width : Nat) (hu : '#' ∉ t) :
    reformat width t = lay width ((laidLines t).flatMap statementsOf) := by
  cases empty : lines t with
  | nil =>
    rw [reformat, segments, laidLines, empty]
    rfl
  | cons line r =>
    have filled : lines t ≠ [] := by simp [empty]
    rw [reformat, segments, segmentsFrom_of_unmarked (fun line mem absent =>
      hu (subset_of_mem_lines mem absent)) filled, laySegments]
    dsimp only
    rw [laySegments, append_nil]
    rfl

/-- The characters of a program that can be laid out with its literals intact. -/
def isBare (c : Char) : Prop :=
  c ≠ '#' ∧ c ≠ '\\' ∧ c ≠ '\r' ∧ isMarked c = false

theorem hasLayout_isBare : HasLayout fun c => isBare c ∧ c ≠ '\n' := by
  unfold isBare
  have capitals : ∀ w ∈ "END".toList :: Construct.smallWords.map (map Char.toUpper),
      w.all (fun c => decide ((c ≠ '#' ∧ c ≠ '\\' ∧ c ≠ '\r' ∧ isMarked c = false) ∧ c ≠ '\n')) =
        true := by decide
  refine ⟨by decide, by decide, by decide, fun w mem c hi => ?_⟩
  exact of_decide_eq_true (all_eq_true.mp (capitals w mem) c hi)

theorem isClear_of_bare (bare : ∀ c ∈ line, isBare c) :
    Lexical.IsClear (Lexical.splitComment line).1 := by
  refine Lexical.isClear_of_forall fun c mem => ?_
  obtain ⟨-, noEscape, -, hu⟩ := bare c (Lexical.splitComment_subset line mem)
  exact ⟨hu, noEscape⟩

theorem isLaid_of_bare (bare : ∀ c ∈ t, isBare c) :
    ∀ s ∈ (lines t).flatMap statementsOf, IsLaid s ∧ ∀ c ∈ s, isBare c ∧ c ≠ '\n' := by
  intro s mem
  obtain ⟨line, member, mem⟩ := mem_flatMap.mp mem
  have noFeed := newline_notMem_of_mem_lines member
  have hi : ∀ c ∈ line, isBare c := fun c shown => bare c (subset_of_mem_lines member shown)
  have clear := isClear_of_bare hi
  refine ⟨isLaid_of_mem_statementsOf clear noFeed mem, ?_⟩
  exact hasLayout_isBare.of_mem_statementsOf clear noFeed
    (fun c shown => ⟨hi c shown, fun feed => noFeed (feed ▸ shown)⟩) mem

section

variable {statements : List Text} {width : Nat}
  (laid : ∀ s ∈ statements, IsLaid s ∧ ∀ c ∈ s, isBare c ∧ c ≠ '\n')

include laid

theorem free_of_laid : ∀ s ∈ statements, '\n' ∉ s ∧ '\r' ∉ s := fun s mem =>
  ⟨fun feed => ((laid s mem).2 _ feed).2 rfl, fun feed => ((laid s mem).2 _ feed).1.2.2.1 rfl⟩

theorem reformat_lay :
    reformat width (lay width statements) = lay width ((trimLast statements).map unglued) := by
  have bare : ∀ c ∈ lay width statements, isBare c := by
    intro c mem
    rcases mem_lay mem with rfl | rfl | ⟨s, member, hi⟩
    · unfold isBare
      decide
    · unfold isBare
      decide
    · exact ((laid s member).2 c hi).1
  rw [reformat_eq_lay width (fun mem => (bare _ mem).1 rfl),
    laidLines_eq fun mem => (bare _ mem).2.2.1 rfl]
  congr 1
  have free := free_of_laid laid
  refine flatMap_lines_lay (fun s member => (laid s member).1.exists_cons) free rfl ?_
  intro s mem level
  have noFeed : '\n' ∉ indent width level := fun mem =>
    absurd (eq_of_mem_replicate mem) (by decide)
  rcases mem_trimLast mem with member | ⟨last, member, rfl⟩
  · exact (laid s member).1.statementsOf_eq (free s member).1
      (fun c => isBlank_of_mem_indent) noFeed
  · refine (laid last member).1.trimEnd.1.statementsOf_eq (fun feed => ?_)
      (fun c => isBlank_of_mem_indent) noFeed
    exact (free last member).1 (mem_of_mem_trimEnd feed)

theorem lay_map_unglued_eq_iff :
    lay width ((trimLast statements).map unglued) = lay width statements ↔
      ∀ s ∈ statements, ¬IsGlued s := by
  have vis : ∀ s ∈ statements, StartsVisibly s := fun s mem => (laid s mem).1.exists_cons
  have free := free_of_laid laid
  have fixed : (trimLast statements).map unglued = trimLast statements ↔
      ∀ s ∈ statements, ¬IsGlued s := by
    conv_lhs => rhs; rw [← map_id (trimLast statements)]
    rw [map_inj_left]
    rcases eq_nil_or_concat statements with rfl | ⟨front, last, rfl⟩
    · simp [trimLast]
    · have last_laid := (laid last (by simp)).1
      rw [concat_eq_append, trimLast_concat, forall_mem_append, forall_mem_append,
        forall_mem_singleton, forall_mem_singleton, id_eq, last_laid.trimEnd.2]
      simp only [id_eq, unglued_eq_self_iff]
  rw [← fixed]
  constructor
  · -- statements are read off their layouts, so equal layouts have equal statements
    intro eq
    have read := congrArg (fun t => (lines t).flatMap shown) eq
    rw [flatMap_shown_lay vis free, flatMap_shown_lay] at read
    · rcases eq_nil_or_concat statements with rfl | ⟨front, last, rfl⟩
      · rfl
      · rw [concat_eq_append, trimLast_concat] at read ⊢
        rwa [map_append, map_singleton, trimLast_concat,
          trimEnd_unglued (trimEnd_trimEnd last), ← map_singleton, ← map_append] at read
    · exact forall_mem_map.mpr fun old mem => (visible_trimLast vis old mem).unglued
    · refine forall_mem_map.mpr fun old mem => ?_
      have old_free := free_trimLast free old mem
      refine ⟨fun feed => ?_, fun feed => ?_⟩
      · exact (mem_unglued feed).elim old_free.1 (by decide)
      · exact (mem_unglued feed).elim old_free.2 (by decide)
  · intro eq
    rw [eq, lay_trimLast vis]

end

/-- Laying out a program anew gives the same text again, exactly where no statement of a line is
glued to a comment; a line that closes its literals has no such statement. The program has no number
signs, backslashes, carriage returns and marked characters. -/
theorem reformat_reformat_eq_iff (width : Nat) (t : Text)
    (bare : ∀ c ∈ t, c ≠ '#' ∧ c ≠ '\\' ∧ c ≠ '\r' ∧ isMarked c = false) :
    reformat width (reformat width t) = reformat width t ↔
      ∀ line ∈ lines t, Lexical.IsClosed (Lexical.splitComment line).1 ∨
        ∀ s ∈ statementsOf line, ¬IsGlued s := by
  have laid := isLaid_of_bare bare
  have once := reformat_eq_lay width fun listed => (bare _ listed).1 rfl
  rw [laidLines_eq fun listed => (bare _ listed).2.2.1 rfl] at once
  rw [once, reformat_lay laid, lay_map_unglued_eq_iff laid, forall_mem_flatMap]
  refine forall₂_congr fun line member => ⟨.inr, ?_⟩
  rintro (closed | bare')
  · intro s listed
    have clear := isClear_of_bare fun c shown => bare c (subset_of_mem_lines member shown)
    exact not_isGlued_of_isClosed clear (newline_notMem_of_mem_lines member) closed listed
  · exact bare'

theorem reformat_reformat_eq_iff_branch :
    "if x>=1 then y:=\"a;b\"; z:=2 // c\nend".toList.all
      (fun c => c != '#' && c != '\\' && c != '\r' && !isMarked c) = true ∧
    reformat 2 (reformat 2 "if x>=1 then y:=\"a;b\"; z:=2 // c\nend".toList) =
      reformat 2 "if x>=1 then y:=\"a;b\"; z:=2 // c\nend".toList := by
  have bare : "if x>=1 then y:=\"a;b\"; z:=2 // c\nend".toList.all
      (fun c => c != '#' && c != '\\' && c != '\r' && !isMarked c) = true := by
    decide +kernel
  have closed : (lines "if x>=1 then y:=\"a;b\"; z:=2 // c\nend".toList).all (fun line =>
      decide (Lexical.IsClosed (Lexical.splitComment line).1)) = true := by
    decide +kernel
  refine ⟨bare, (reformat_reformat_eq_iff 2 _ fun c listed => ?_).mpr fun line listed => .inl ?_⟩
  · simpa [and_assoc] using all_eq_true.mp bare c listed
  · exact of_decide_eq_true (all_eq_true.mp closed line listed)

/-- A quote that is left open hides two slashes once, and then no more. -/
theorem reformat_open_quote_twice :
    reformat 2 "\"a; x//y".toList = "\"a;\nx//y\n".toList ∧
      reformat 2 (reformat 2 "\"a; x//y".toList) = "\"a;\nx //y\n".toList := by
  decide +kernel

end Program

end PrimePlus.Program
