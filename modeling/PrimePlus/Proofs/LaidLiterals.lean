import PrimePlus.Proofs.CodeLines
import PrimePlus.Proofs.ReformatStability

/-!
The literals of a program that is laid out anew.
-/

namespace PrimePlus.Program

open List

open Lexical
open Unicode (isBlank)
open Text

section Line

variable {line : Text}

theorem lineLiterals_of_none {s : Text} (missed : comment? s = none) :
    lineLiterals s = literals s := by
  rw [lineLiterals, splitComment_of_none missed]

theorem flatMap_heldOf_statements (list : List (Lexeme Text)) :
    (statements list).flatMap heldOf = heldOf list := by
  have eq := marks_statements list
  unfold heldOf
  rw [← eq, filterMap_flatMap]

theorem flatMap_addComment {β : Type} {read : Text → List β} {comment : Text} {list : List Text}
    (nothing : read comment = []) (hv : ∀ s ∈ list, read (s ++ ' ' :: comment) = read s) :
    (addComment comment list).flatMap read = list.flatMap read := by
  induction list with
  | nil => simpa [addComment] using nothing
  | cons s r ih =>
    obtain ⟨first, others⟩ := forall_mem_cons.mp hv
    cases r with
    | nil => simpa [addComment] using first
    | cons next r => exact congrArg (read s ++ ·) (ih others)

theorem flatMap_lineLiterals_statementsOf (clear : IsClear (splitComment line).1)
    (hc : IsClosed (splitComment line).1) (one : '\n' ∉ line) :
    (statementsOf line).flatMap lineLiterals = lineLiterals line := by
  obtain ⟨list, isCode⟩ := exists_isCode clear one
  obtain ⟨closes, unslashed⟩ := isCode.closed_and_unslashed hc
  have ⟨lawful, quoted, _, ⟨tail, hb, code⟩, kind⟩ := isCode
  have held {statement : List (Lexeme Text)} (member : statement ∈ statements list) {gap : Text}
      (gap_blank : ∀ c ∈ gap, isBlank c) :
      literals (write id statement ++ gap) = heldOf statement := by
    obtain ⟨b, ending, rfl, settled, -⟩ := exists_isSettled lawful member
    exact literals_write (lawful_ended settled.lawful ending)
      (AreQuoted.of_mem_statements quoted member) gap_blank
  have bare {statement : List (Lexeme Text)} (member : statement ∈ statements list) :
      lineLiterals (write id statement) = heldOf statement := by
    have missed := isCode.comment?_statement closes unslashed member (t := []) (by simp)
    have hs : literals (write id statement ++ []) = heldOf statement := held member (by simp)
    rw [append_nil] at missed hs
    rw [lineLiterals_of_none missed, hs]
  have all : ((statements list).map (write id)).flatMap lineLiterals = lineLiterals line := by
    rw [lineLiterals, code, literals_write lawful quoted hb, ← flatMap_heldOf_statements,
      flatMap_map]
    exact congrArg flatten (map_congr_left fun statement member => bare member)
  rcases kind with ⟨-, eq⟩ | ⟨more, -, -, -, eq⟩
  · rw [eq, all]
  · rw [eq, flatMap_addComment rfl (forall_mem_map.mpr fun statement member => ?_), all]
    have behind := isCode.comment?_statement closes unslashed member
      (t := ' ' :: '/' :: '/' :: more) (by simp)
    rw [bare member, lineLiterals, splitComment_of_some behind, literals_trimEnd]
    exact held member (by simp [isBlank_space])

end Line

section Program

variable {wd : Nat}

theorem flatMap_lineLiterals_layStatements (d : Nat) (statements : List Text) :
    (layStatements wd d statements).1.flatMap lineLiterals = statements.flatMap lineLiterals := by
  induction statements generalizing d with
  | nil => rfl
  | cons statement r ih =>
    have indented (level : Nat) :
        lineLiterals (Layout.indent wd level ++ statement) = lineLiterals statement :=
      literals_splitComment_indent (fun c => isBlank_of_mem_indent) statement
    have gap : lineLiterals [] = [] := rfl
    rw [layStatements]
    dsimp only
    rw [cons_append, flatMap_cons, flatMap_append, ih, indented]
    split <;> simp [gap]

theorem opensVerbatim_indent (level : Nat) (statement : Text) :
    opensVerbatim (Layout.indent wd level ++ statement) = opensVerbatim statement := by
  have front : trimStart (Layout.indent wd level ++ statement) = trimStart statement :=
    dropWhile_append_of_pos fun c => isBlank_of_mem_indent
  rw [opensVerbatim, opensBlock, startsWithWord, startsWithWord, startsWithWord, front]
  rfl

theorem opensVerbatim_of_mem_layStatements {d : Nat} {statements : List Text}
    (bare : ∀ s ∈ statements, opensVerbatim s = false) :
    ∀ line ∈ (layStatements wd d statements).1, opensVerbatim line = false := by
  intro line mem
  rcases mem_layStatements mem with rfl | ⟨level, s, member, rfl⟩
  · rfl
  · rw [opensVerbatim_indent, bare s member]

/-- Code of which every line can be told apart: its literals end where they end for every reader,
and no statement of it is kept as it is when it stands on a line of its own. -/
structure IsLegibleLine (line : Text) : Prop where
  clear : IsClear (splitComment line).1
  closed : IsClosed (splitComment line).1
  bare : ∀ s ∈ statementsOf line, opensVerbatim s = false

variable {list : List Segment}

theorem flatMap_lines_codeOf (t : Text) : (codeOf (.code t :: list)).flatMap lines =
    lines t ++ (codeOf list).flatMap lines :=
  rfl

theorem literalsFrom_laySegments {embedded : Bool} (read : IsRead embedded list)
    (legible : ∀ line ∈ (codeOf list).flatMap lines, IsLegibleLine line) (d : Nat) :
    literalsFrom embedded (laySegments wd d list) =
      ((codeOf list).flatMap lines).flatMap lineLiterals := by
  induction read generalizing d with
  | nil => rfl
  | @verbatim embedded line r kept _ ih =>
    rw [laySegments, literalsFrom_cons, if_pos kept]
    exact ih legible d
  | @code t r _ _ ih =>
    rw [flatMap_lines_codeOf, forall_mem_append] at legible
    obtain ⟨here, later⟩ := legible
    have bare : ∀ s ∈ (lines t).flatMap statementsOf, opensVerbatim s = false :=
      forall_mem_flatMap.mpr fun line among => (here line among).bare
    have statements : ((lines t).flatMap statementsOf).flatMap lineLiterals =
        (lines t).flatMap lineLiterals := by
      rw [flatMap_assoc]
      refine congrArg flatten (map_congr_left fun line mem => ?_)
      exact flatMap_lineLiterals_statementsOf (here line mem).clear (here line mem).closed
        (newline_notMem_of_mem_lines mem)
    rw [laySegments, literalsFrom, codeLinesFrom_append (opensVerbatim_of_mem_layStatements bare),
      flatMap_append, flatMap_lineLiterals_layStatements, statements, flatMap_lines_codeOf,
      flatMap_append, ← ih later]
    rfl

theorem hasLayout_newline : HasLayout (· ≠ '\n') where
  space := hasLayout_isBare.space.2
  mark := hasLayout_isBare.mark.2
  signs sign mem := (hasLayout_isBare.signs sign mem).2
  capitals w mem c inside := (hasLayout_isBare.capitals w mem c inside).2

theorem mem_of_verbatim_mem_segmentsFrom {embedded : Bool} {lines : List Text} {line : Text}
    (mem : .verbatim line ∈ segmentsFrom embedded lines) : line ∈ lines := by
  induction lines generalizing embedded with
  | nil => cases mem
  | cons first r ih =>
    rw [segmentsFrom_cons] at mem
    split at mem
    · rcases mem_cons.mp mem with eq | later
      · cases eq
        exact mem_cons_self
      · exact mem_cons_of_mem first (ih later)
    · refine mem_cons_of_mem first (@ih false ?_)
      generalize segmentsFrom false r = list at mem ⊢
      unfold consCode at mem
      split at mem
      · exact mem_cons_of_mem _ (by simpa using mem)
      · simpa using mem

theorem newline_notMem_of_mem_laySegments (verbatim : ∀ line, .verbatim line ∈ list → '\n' ∉ line)
    (code : ∀ line ∈ (codeOf list).flatMap lines, ∀ s ∈ statementsOf line, '\n' ∉ s)
    (d : Nat) : ∀ line ∈ laySegments wd d list, '\n' ∉ line := by
  induction list generalizing d with
  | nil => simp [laySegments]
  | cons segment r ih =>
    have others := ih fun line mem => verbatim line (mem_cons_of_mem segment mem)
    cases segment with
    | verbatim first =>
      exact forall_mem_cons.mpr ⟨verbatim first mem_cons_self, others code d⟩
    | code t =>
      rw [flatMap_lines_codeOf, forall_mem_append] at code
      refine forall_mem_append.mpr ⟨fun line mem hi => ?_, others code.2 _⟩
      rcases mem_layStatements mem with rfl | ⟨level, s, member, rfl⟩
      · cases hi
      · rcases mem_append.mp hi with lead | hi
        · cases eq_of_mem_replicate lead
        · obtain ⟨original, among, member⟩ := mem_flatMap.mp member
          exact code.1 original among s member hi

theorem codeLiterals_reformat {t : Text} (legible : ∀ line ∈ codeLines t, IsLegibleLine line)
    (wd : Nat) : codeLiterals (reformat wd t) = codeLiterals t := by
  have laid : literalsFrom false (laySegments wd 0 (segments t)) = codeLiterals t :=
    literalsFrom_laySegments (isRead_segmentsFrom false (lines t)) legible 0
  have one : ∀ line ∈ laySegments wd 0 (segments t), '\n' ∉ line := by
    refine newline_notMem_of_mem_laySegments (fun line mem => ?_) (fun line mem s member => ?_) 0
    · exact newline_notMem_of_mem_lines (mem_of_verbatim_mem_segmentsFrom mem)
    · obtain ⟨code, -, among⟩ := mem_flatMap.mp mem
      have feed := newline_notMem_of_mem_lines among
      exact fun hi => hasLayout_newline.of_mem_statementsOf (legible line mem).clear feed
        (fun c hs eq => feed (eq ▸ hs)) member _ hi rfl
  rw [← laid, codeLiterals_eq, reformat, trimEnd_join]
  rcases blank_or_exists_last (laySegments wd 0 (segments t)) with
    all | ⟨front, last, blanks, shape, hs, hb⟩
  · have hb := isBlankText_ofLines all
    have nothing := trimEnd_append_of_isBlankText hb []
    rw [nil_append] at nothing
    rw [nothing, literalsFrom_of_blank all]
    rfl
  · rw [shape] at one ⊢
    rw [trimEnd_ofLines hs hb, literalsFrom_ofLines, literalsFrom_trimEnd hb]
    exact forall_mem_append.mpr ⟨(forall_mem_append.mp one).1, forall_mem_singleton.mpr
      fun hi => one last (by simp) (mem_of_mem_trimEnd hi)⟩

end Program

end PrimePlus.Program
