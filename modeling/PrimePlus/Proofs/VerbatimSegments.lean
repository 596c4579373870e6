import PrimePlus.Program.Minify
import PrimePlus.Program.Reformat
import PrimePlus.Proofs.TextLines

/-!
Lines that the passes over a generated program leave alone.
-/

namespace PrimePlus.Program

open List

open Text
open Unicode (isBlank)

variable {blocks : List (List Text)} {line t : Text} {segments : List Segment}

def Closes (line : Text) : Prop :=
  IsLine line ∧ startsWithWord line "#END" = true

/-- Whether lines are an embedded block of a generated program, up to the line that ends it. -/
structure IsBlock (block : List Text) : Prop where
  opens : ∃ opening ∈ block.head?, opensBlock opening = true
  isLine : ∀ line ∈ block, IsLine line
  continues : ∀ line ∈ block, startsWithWord line "#END" = false

/-- Whether a list holds several lists in order, each in one piece and with an item of some kind
right behind it. -/
def Contains {α : Type} (closes : α → Prop) : List (List α) → List α → Prop
  | [], _ => True
  | block :: blocks, items => ∃ before last after,
      items = before ++ block ++ last :: after ∧ closes last ∧ Contains closes blocks after

def Spells : List (List Text) → Text → Prop
  | [], _ => True
  | block :: blocks, t => ∃ before last after,
      t = before ++ ofLines block ++ last ++ '\n' :: after ∧ EndsLine before ∧ Closes last ∧
        Spells blocks after

section Closing

theorem startsWithWord_end_iff (line : Text) :
    startsWithWord line "#END" ↔
      ∃ lead tail, line = lead ++ "#END".toList ++ tail ∧ ∀ c ∈ lead, isBlank c := by
  constructor
  · intro starts
    obtain ⟨tail, whole⟩ := isPrefixOf_iff_prefix.mp starts
    refine ⟨line.takeWhile isBlank, tail, ?_, fun c mem => mem_takeWhile_imp mem⟩
    rw [append_assoc, whole, trimStart, takeWhile_append_dropWhile]
  · rintro ⟨lead, tail, rfl, hb⟩
    rw [startsWithWord, trimStart, append_assoc, dropWhile_append_of_pos hb]
    rfl

theorem Closes.not_isBlankText (closes : Closes line) : isBlankText line = false := by
  obtain ⟨lead, tail, rfl, -⟩ := (startsWithWord_end_iff line).mp closes.2
  have word : isBlankText "#END".toList = false := by decide
  rw [isBlankText_append, isBlankText_append, word, Bool.and_false, Bool.false_and]

theorem Closes.trimEnd (closes : Closes line) : Closes (trimEnd line) := by
  refine ⟨isLine_trimEnd closes.1.1, (startsWithWord_end_iff _).mpr ?_⟩
  obtain ⟨lead, tail, rfl, hb⟩ := (startsWithWord_end_iff line).mp closes.2
  have word : isBlankText "#END".toList = false := by decide
  cases hs : isBlankText tail with
  | true =>
    refine ⟨lead, [], ?_, hb⟩
    rw [trimEnd_append_of_isBlankText hs, trimEnd_append word, append_nil]
    rfl
  | false => exact ⟨lead, trimEnd tail, trimEnd_append hs _, hb⟩

end Closing

section Lists

theorem Contains.spells {rows : List Text} (contains : Contains Closes blocks rows) :
    Spells blocks (ofLines rows) := by
  induction blocks generalizing rows with
  | nil => trivial
  | cons block blocks ih =>
    obtain ⟨pre, last, after, rfl, closes, more⟩ := contains
    exact ⟨ofLines pre, last, ofLines after, by simp, endsLine_ofLines pre, closes, ih more⟩

variable (areBlocks : ∀ block ∈ blocks, IsBlock block)

include areBlocks in
theorem Spells.contains (spells : Spells blocks t) : Contains Closes blocks (lines t) := by
  induction blocks generalizing t with
  | nil => trivial
  | cons block blocks ih =>
    obtain ⟨pre, last, after, rfl, ends, closes, more⟩ := spells
    have isBlock := areBlocks block mem_cons_self
    refine ⟨lines pre, last, lines after, ?_, closes, ih ((forall_mem_cons.mp areBlocks).2) more⟩
    rw [append_assoc, append_assoc, ends.lines_append,
      lines_ofLines_append isBlock.isLine, closes.1.lines_append, append_assoc]

theorem Spells.append_left {u : Text} (ends : EndsLine u) (spells : Spells blocks t) :
    Spells blocks (u ++ t) := by
  cases blocks with
  | nil => trivial
  | cons block blocks =>
    obtain ⟨pre, last, after, rfl, endsBefore, r⟩ := spells
    exact ⟨u ++ pre, last, after, by simp, ends.append endsBefore, r⟩

theorem Spells.not_isBlankText {block : List Text} (spells : Spells (block :: blocks) t) :
    isBlankText t = false := by
  obtain ⟨pre, last, after, rfl, -, closes, -⟩ := spells
  rw [isBlankText_append, isBlankText_append, closes.not_isBlankText, Bool.and_false,
    Bool.false_and]

theorem Spells.trimEnd (spells : Spells blocks t) : Spells blocks (trimEnd t ++ ['\n']) := by
  induction blocks generalizing t with
  | nil => trivial
  | cons block blocks ih =>
    obtain ⟨pre, last, after, rfl, ends, closes, more⟩ := spells
    cases hs : isBlankText ('\n' :: after) with
    | false =>
      refine ⟨pre, last, trimEnd after ++ ['\n'], ?_, ends, closes, ih more⟩
      have hr : isBlankText after = false := by
        simpa [isBlankText, isBlank_newline] using hs
      have feed := trimEnd_append hr ['\n']
      rw [singleton_append] at feed
      rw [trimEnd_append hs, feed]
      simp
    | true =>
      -- nothing but blanks follows, so this block is the last
      cases blocks with
      | cons next blocks =>
        have vis := more.not_isBlankText
        rw [← singleton_append, isBlankText_append, vis] at hs
        cases hs
      | nil =>
        refine ⟨pre, trimEnd last, [], ?_, ends, closes.trimEnd, trivial⟩
        rw [trimEnd_append_of_isBlankText hs, trimEnd_append closes.not_isBlankText]

end Lists

section Segments

def ClosesVerbatim (segment : Segment) : Prop :=
  ∃ line, segment = .verbatim line ∧ Closes line

theorem segmentsFrom_continued {ls : List Text} {last : Text}
    (continues : ∀ line ∈ ls, startsWithWord line "#END" = false)
    (ends : startsWithWord last "#END") (after : List Text) :
    segmentsFrom true (ls ++ last :: after) =
      ls.map .verbatim ++ .verbatim last :: segmentsFrom false after := by
  induction ls with
  | nil => simp [segmentsFrom, ends]
  | cons line r ih =>
    have first := continues line mem_cons_self
    simp [segmentsFrom, first, ih (forall_mem_cons.mp continues).2]

theorem IsBlock.segmentsFrom_eq {block : List Text} {last : Text} (isBlock : IsBlock block)
    (ends : startsWithWord last "#END") (embedded : Bool) (after : List Text) :
    segmentsFrom embedded (block ++ last :: after) =
      block.map .verbatim ++ .verbatim last :: segmentsFrom false after := by
  obtain ⟨opening, head, opens⟩ := isBlock.opens
  obtain ⟨r, rfl⟩ := head?_eq_some_iff.mp head
  have first := isBlock.continues opening mem_cons_self
  have more := segmentsFrom_continued ((forall_mem_cons.mp isBlock.continues).2) ends after
  simp [segmentsFrom, opens, first, more]

theorem exists_segmentsFrom_append {r : List Text} {segments : List Segment}
    (kept : ∀ embedded, segmentsFrom embedded r = .verbatim line :: segments)
    (pre : List Text) (embedded : Bool) :
    ∃ u, segmentsFrom embedded (pre ++ r) = u ++ .verbatim line :: segments := by
  induction pre generalizing embedded with
  | nil => exact ⟨[], kept embedded⟩
  | cons a pre ih =>
    rw [cons_append, segmentsFrom]
    split
    · obtain ⟨u, later⟩ := ih (if embedded && startsWithWord a "#END" then false
        else embedded || opensBlock a)
      exact ⟨.verbatim a :: u, by rw [later]; rfl⟩
    · obtain ⟨u, later⟩ := ih (if embedded && startsWithWord a "#END" then false
        else embedded || opensBlock a)
      rw [later]
      rcases u with _ | ⟨segment, u⟩
      · exact ⟨[.code (a ++ ['\n'])], rfl⟩
      · cases segment with
        | verbatim o => exact ⟨.code (a ++ ['\n']) :: .verbatim o :: u, rfl⟩
        | code t => exact ⟨.code (a ++ '\n' :: t) :: u, rfl⟩

theorem Contains.segmentsFrom {ls : List Text} (areBlocks : ∀ block ∈ blocks, IsBlock block)
    (contains : Contains Closes blocks ls) (embedded : Bool) :
    Contains ClosesVerbatim (blocks.map (map .verbatim)) (segmentsFrom embedded ls) := by
  induction blocks generalizing ls embedded with
  | nil => trivial
  | cons block blocks ih =>
    obtain ⟨pre, last, after, rfl, closes, more⟩ := contains
    have isBlock := areBlocks block mem_cons_self
    have later := ih ((forall_mem_cons.mp areBlocks).2) more false
    have kept (embedded : Bool) := isBlock.segmentsFrom_eq closes.2 embedded after
    obtain ⟨opening, head, -⟩ := isBlock.opens
    obtain ⟨r, rfl⟩ := head?_eq_some_iff.mp head
    obtain ⟨front, whole⟩ := exists_segmentsFrom_append kept pre embedded
    refine ⟨front, .verbatim last, Program.segmentsFrom false after, ?_, ⟨last, rfl, closes⟩, later⟩
    rw [append_assoc, whole, append_assoc]
    rfl

/-- The line of a segment that stays as it is. -/
def Segment.kept? : Segment → Option Text
  | .verbatim line => some line
  | .code _ => none

def IsOrdinary (line : Text) : Prop :=
  opensBlock line = false ∧ startsWithWord line "#pragma" = false

/-- Whether lines are blocks with ordinary lines around them, and which of them stand in a block or
end one. -/
inductive Alternates : List Text → List Text → Prop
  | ordinary {ls : List Text} (all : ∀ line ∈ ls, IsOrdinary line) : Alternates ls []
  | block {before block after kept : List Text} {last : Text}
      (all : ∀ line ∈ before, IsOrdinary line) (isBlock : IsBlock block) (closes : Closes last)
      (more : Alternates after kept) :
      Alternates (before ++ (block ++ last :: after)) (block ++ last :: kept)

theorem filterMap_consCode (line : Text) (segments : List Segment) :
    (consCode line segments).filterMap Segment.kept? = segments.filterMap Segment.kept? := by
  cases segments with
  | nil => rfl
  | cons segment rest => cases segment <;> rfl

theorem filterMap_segmentsFrom_append {ls : List Text} (all : ∀ line ∈ ls, IsOrdinary line)
    (rest : List Text) : (segmentsFrom false (ls ++ rest)).filterMap Segment.kept? =
      (segmentsFrom false rest).filterMap Segment.kept? := by
  induction ls with
  | nil => rfl
  | cons line more ih =>
    obtain ⟨⟨opensNone, unmarked⟩, others⟩ := forall_mem_cons.mp all
    simp [segmentsFrom, opensNone, unmarked, filterMap_consCode, ih others]

/-- Nothing else stays as it is, where the lines outside the blocks neither open a block nor are
pragmas. -/
theorem Alternates.filterMap_segmentsFrom {ls kept : List Text} (alternates : Alternates ls kept) :
    (segmentsFrom false ls).filterMap Segment.kept? = kept := by
  induction alternates with
  | ordinary all => simpa [segmentsFrom] using filterMap_segmentsFrom_append all []
  | @block before block after kept last all isBlock closes more ih =>
    have stays : (block.map Segment.verbatim).filterMap Segment.kept? = block := by
      simp [filterMap_map, Function.comp_def, Segment.kept?]
    rw [filterMap_segmentsFrom_append all, isBlock.segmentsFrom_eq closes.2,
      filterMap_append, stays]
    exact congrArg (block ++ last :: ·) ih

end Segments

section Layout

theorem laySegments_verbatim (wd depth : Nat) (ls : List Text) (rest : List Segment) :
    laySegments wd depth (ls.map .verbatim ++ rest) = ls ++ laySegments wd depth rest := by
  induction ls with
  | nil => rfl
  | cons line ls ih => simp [laySegments, ih]

theorem exists_laySegments_append (wd depth : Nat) (front rest : List Segment) :
    ∃ lead after, laySegments wd depth (front ++ rest) = lead ++ laySegments wd after rest := by
  induction front generalizing depth with
  | nil => exact ⟨[], depth, rfl⟩
  | cons segment front ih =>
    cases segment with
    | verbatim line =>
      obtain ⟨lead, after, whole⟩ := ih depth
      exact ⟨line :: lead, after, by rw [cons_append, laySegments, whole]; rfl⟩
    | code t =>
      obtain ⟨lead, after, whole⟩ := ih (layStatements wd depth ((lines t).flatMap statementsOf)).2
      refine ⟨(layStatements wd depth ((lines t).flatMap statementsOf)).1 ++ lead, after, ?_⟩
      rw [cons_append, laySegments]
      dsimp only
      rw [whole, append_assoc]

theorem Contains.laySegments (wd : Nat)
    (contains : Contains ClosesVerbatim (blocks.map (map .verbatim)) segments) (depth : Nat) :
    Contains Closes blocks (laySegments wd depth segments) := by
  induction blocks generalizing segments depth with
  | nil => trivial
  | cons block blocks ih =>
    obtain ⟨pre, -, after, rfl, ⟨last, rfl, closes⟩, more⟩ := contains
    obtain ⟨lead, inner, whole⟩ := exists_laySegments_append wd depth pre
      (block.map .verbatim ++ .verbatim last :: after)
    refine ⟨lead, last, Program.laySegments wd inner after, ?_, closes, ih more inner⟩
    rw [append_assoc, whole, laySegments_verbatim, Program.laySegments, append_assoc]

theorem Spells.reformat (areBlocks : ∀ block ∈ blocks, IsBlock block)
    (spells : Spells blocks t) (wd : Nat) : Spells blocks (reformat wd t) := by
  have laid := (((spells.contains areBlocks).segmentsFrom areBlocks false).laySegments wd 0).spells
  have trimmed := laid.trimEnd
  cases blocks with
  | nil => trivial
  | cons block blocks =>
    have ne : laySegments wd 0 (segments t) ≠ [] := by
      intro missed
      have vis := laid.not_isBlankText
      rw [← segments, missed] at vis
      cases vis
    rw [← segments, ← join_append_newline ne, trimEnd_append_of_isBlankText (by decide)] at trimmed
    exact trimmed

end Layout

section Small

theorem Contains.map {f : Segment → Segment} (keeps : ∀ line, f (.verbatim line) = .verbatim line)
    (contains : Contains ClosesVerbatim (blocks.map (List.map .verbatim)) segments) :
    Contains ClosesVerbatim (blocks.map (List.map .verbatim)) (segments.map f) := by
  induction blocks generalizing segments with
  | nil => trivial
  | cons block blocks ih =>
    obtain ⟨pre, -, after, rfl, ⟨last, rfl, closes⟩, more⟩ := contains
    refine ⟨pre.map f, .verbatim last, after.map f, ?_, ⟨last, rfl, closes⟩, ih more⟩
    simp [keeps]

theorem endsLine_segmentText (segment : Segment) : EndsLine (segmentText segment) := by
  cases segment with
  | verbatim line => exact endsLine_concat line
  | code t =>
    unfold segmentText
    dsimp only
    split
    · exact .inl rfl
    · exact endsLine_concat _

theorem endsLine_flatMap_segmentText (segments : List Segment) :
    EndsLine (segments.flatMap segmentText) := by
  induction segments with
  | nil => exact .inl rfl
  | cons segment segments ih => exact (endsLine_segmentText segment).append ih

theorem flatMap_segmentText_verbatim (lines : List Text) :
    (lines.map Segment.verbatim).flatMap segmentText = ofLines lines := by
  rw [flatMap_map]
  rfl

theorem Contains.spells_segmentText
    (contains : Contains ClosesVerbatim (blocks.map (List.map .verbatim)) segments) :
    Spells blocks (segments.flatMap segmentText) := by
  induction blocks generalizing segments with
  | nil => trivial
  | cons block blocks ih =>
    obtain ⟨pre, -, after, rfl, ⟨last, rfl, closes⟩, more⟩ := contains
    refine ⟨pre.flatMap segmentText, last, after.flatMap segmentText, ?_,
      endsLine_flatMap_segmentText pre, closes, ih more⟩
    simp [flatMap_segmentText_verbatim, segmentText]

theorem Spells.minify (areBlocks : ∀ block ∈ blocks, IsBlock block)
    (spells : Spells blocks t) : Spells blocks (minify t) := by
  have kept := (spells.contains areBlocks).segmentsFrom areBlocks false
  exact ((kept.map fun _ => rfl).map fun _ => rfl).spells_segmentText

end Small

end PrimePlus.Program
