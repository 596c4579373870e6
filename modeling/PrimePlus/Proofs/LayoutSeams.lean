import PrimePlus.Program.Reformat
import PrimePlus.Proofs.LiteralProtection
import PrimePlus.Proofs.RespelledSeams
import PrimePlus.Proofs.TextLines

/-!
The lines of a generated program have no marked character: layout works at seams.
-/

namespace PrimePlus

open List hiding all any

open Regex
open Lexical (IsPlainText Seamed Unmarked unmarked_append seamed_unmarked Intact seamed_intact
  protect)

variable {xs : List Text}

theorem isPlainText_indent (wd level : Nat) : IsPlainText (Layout.indent wd level) :=
  Lexical.isPlainText_replicate (by decide) _

namespace Layout

theorem guarded_assignmentPattern : assignmentPattern.Guarded :=
  guarded (by simp +decide [assignmentPattern, vocabulary])

theorem guarded_beforeSeparatorPattern : beforeSeparatorPattern.Guarded :=
  guarded (by simp +decide [beforeSeparatorPattern, vocabulary])

theorem guarded_afterOpeningPattern : afterOpeningPattern.Guarded :=
  guarded (by simp +decide [afterOpeningPattern, vocabulary])

theorem mem_statementsOfParts {parts : List Text} {stmt : Text}
    (mem : stmt ∈ statementsOfParts parts) : ∃ part ∈ parts,
      Text.isBlankText part = false ∧ (stmt = Text.trim part ∨ stmt = Text.trim part ++ [';']) := by
  induction parts using statementsOfParts.induct with
  | case1 => cases mem
  | case2 last hb =>
    rw [statementsOfParts, if_pos hb] at mem
    cases mem
  | case3 last hsh =>
    rw [statementsOfParts, if_neg hsh, mem_singleton] at mem
    exact ⟨last, mem_cons_self, by simpa using hsh, .inl mem⟩
  | case4 part r more hb ih =>
    rw [statementsOfParts.eq_3 _ _ more, if_pos hb] at mem
    obtain ⟨o, other', hit⟩ := ih mem
    exact ⟨o, mem_cons_of_mem _ other', hit⟩
  | case5 part r more hsh ih =>
    rw [statementsOfParts.eq_3 _ _ more, if_neg hsh] at mem
    rcases mem_cons.mp mem with rfl | later
    · exact ⟨part, mem_cons_self, by simpa using hsh, .inr rfl⟩
    · obtain ⟨o, other', hit⟩ := ih later
      exact ⟨o, mem_cons_of_mem _ other', hit⟩

variable {P : Text → Prop} (hs : Seamed P) {line : Text}

section Statements

include hs

theorem holds_tidy (whole : P line) : P (tidy line) := by
  apply hs.trim
  apply guarded_afterOpeningPattern.replaceAllWith hs (by decide)
  apply guarded_beforeSeparatorPattern.replaceAll hs fun hit parts => parts.group hs 1
  exact guarded_assignmentPattern.replaceAllWith hs (by decide) whole

theorem holds_statements (whole : P line) : ∀ statement ∈ statements line, P statement := by
  intro statement mem
  obtain ⟨row, hi, among⟩ := mem_flatMap.mp mem
  have tidied := holds_tidy hs (hs.splitOn '\n' (by decide) whole row hi)
  obtain ⟨part, part', -, rfl | rfl⟩ := mem_statementsOfParts among
  all_goals have trimmed := hs.trim (hs.splitTop ';' (by decide) tidied part part')
  · exact trimmed
  · exact hs.append _ _ trimmed (hs.singleton (by decide))

theorem holds_linesFrom (wd d : Nat) (all : ∀ t ∈ xs, P t) :
    ∀ line ∈ linesFrom wd d xs, P line := by
  induction xs generalizing d with
  | nil => simp [linesFrom]
  | cons stmt r ih =>
    obtain ⟨first, others⟩ := forall_mem_cons.mp all
    exact forall_mem_cons.mpr
      ⟨hs.append _ _ (hs.plain _ (isPlainText_indent _ _)) first, ih _ others⟩

end Statements

def remarkOf (comment : Option Text) : Text :=
  (comment.map fun comment => ' ' :: comment).getD []

variable {comment : Option Text}

theorem forall_mem_withComment {p : Text → Prop}
    (each : ∀ s ∈ xs, p s ∧ p (s ++ remarkOf comment)) : ∀ s ∈ withComment comment xs, p s := by
  induction xs with
  | nil => simp [withComment]
  | cons s r ih =>
    obtain ⟨here, later⟩ := forall_mem_cons.mp each
    cases r with
    | nil => simpa [withComment, remarkOf] using here.2
    | cons next r => exact forall_mem_cons.mpr ⟨here.1, ih later⟩

theorem unmarked_lay (width d : Nat) {st : Lexical.Store}
    (stored : ∀ literal ∈ st, Unmarked literal) (remark : ∀ t ∈ comment, Unmarked t)
    (intact : Intact st.length line) : ∀ t ∈ lay width d st comment line, Unmarked t := by
  have behind : Unmarked (remarkOf comment) := by
    cases comment with
    | none => simp [remarkOf, Unmarked]
    | some comment => exact seamed_unmarked.cons (by decide) (remark comment rfl)
  refine forall_mem_withComment fun t mem => ?_
  rw [unmarked_append, and_iff_left behind, and_self]
  obtain ⟨written, hi, rfl⟩ := mem_map.mp mem
  have hs := seamed_intact st.length
  have whole := holds_linesFrom hs width d (holds_statements hs intact) written hi
  exact whole.unmarked_restore stored

end Layout

namespace Program

variable {t : Text}

section Segments

def Segment.held : Segment → Text
  | .verbatim line => line
  | .code t => t

theorem unmarked_consCode {line : Text} {segments : List Segment} (first : Unmarked line)
    (all : ∀ segment ∈ segments, Unmarked segment.held) :
    ∀ segment ∈ consCode line segments, Unmarked segment.held := by
  unfold consCode
  split
  · obtain ⟨hu, others⟩ := forall_mem_cons.mp all
    exact forall_mem_cons.mpr
      ⟨unmarked_append.mpr ⟨first, seamed_unmarked.cons (by decide) hu⟩, others⟩
  · exact forall_mem_cons.mpr ⟨unmarked_append.mpr ⟨first, by decide⟩, all⟩

theorem unmarked_segmentsFrom (embedded : Bool) {ls : List Text}
    (all : ∀ line ∈ ls, Unmarked line) :
    ∀ segment ∈ segmentsFrom embedded ls, Unmarked segment.held := by
  induction ls generalizing embedded with
  | nil => simp [segmentsFrom]
  | cons line r ih =>
    obtain ⟨first, others⟩ := forall_mem_cons.mp all
    unfold segmentsFrom
    dsimp only
    split
    · exact forall_mem_cons.mpr ⟨first, ih _ others⟩
    · exact unmarked_consCode first (ih _ others)

theorem unmarked_lines (hu : Unmarked t) : ∀ line ∈ Text.lines t, Unmarked line :=
  fun _ mem => hu.subset (Text.subset_of_mem_lines mem)

theorem unmarked_segments (hu : Unmarked t) : ∀ segment ∈ segments t, Unmarked segment.held :=
  unmarked_segmentsFrom false (unmarked_lines hu)

end Segments

section Reformat

theorem guarded_smallEndPattern : smallEndPattern.Guarded :=
  guarded (by simp +decide [smallEndPattern, vocabulary])

theorem guarded_breakAfterPattern : breakAfterPattern.Guarded :=
  guarded (by simp +decide [breakAfterPattern, any, vocabulary])

theorem guarded_breakBeforePattern : breakBeforePattern.Guarded :=
  guarded (by simp +decide [breakBeforePattern, any, vocabulary])

theorem guarded_commaPattern : commaPattern.Guarded :=
  guarded (by simp +decide [commaPattern, vocabulary])

section Seamed

variable {P : Text → Prop} (hs : Seamed P) {t : Text}

include hs

theorem holds_respellAndBreak (whole : P t) : P (respellAndBreak t) := by
  have sign : ∀ e ∈ comparisonSigns, IsPlainText e.1.toList ∧ e.1.toList ≠ [] ∧
      IsPlainText e.2.toList := by decide
  refine guarded_breakBeforePattern.replaceAll hs
    (fun hit parts => hs.cons (by decide) parts.text) ?_
  refine guarded_breakAfterPattern.replaceAll hs
    (fun hit parts => hs.append _ _ parts.text (hs.singleton (by decide))) ?_
  refine foldlRecOn comparisonSigns _ ?_ fun t pre e mem => ?_
  · exact guarded_smallEndPattern.replaceAllWith hs (by decide)
      (Construct.holds_capitalize hs whole)
  · obtain ⟨old, ne, new⟩ := sign e mem
    exact hs.replace old ne (hs.plain _ new) pre

theorem holds_tidyStatement (whole : P t) : P (tidyStatement t) := by
  apply hs.trim
  apply Layout.guarded_assignmentPattern.replaceAllWith hs (by decide)
  exact guarded_commaPattern.replaceAllWith hs (by decide) (hs.collapseBlanks whole)

end Seamed

theorem unmarked_statementsOfParts {st : Lexical.Store}
    (stored : ∀ literal ∈ st, Unmarked literal) {parts : List Text}
    (all : ∀ part ∈ parts, Intact st.length part) :
    ∀ statement ∈ statementsOfParts st parts, Unmarked statement := by
  induction parts with
  | nil => simp [statementsOfParts]
  | cons part r ih =>
    obtain ⟨whole, others⟩ := forall_mem_cons.mp all
    have first := holds_tidyStatement (seamed_intact _) whole
    unfold statementsOfParts
    dsimp only
    split
    · exact ih others
    · exact forall_mem_cons.mpr
        ⟨unmarked_append.mpr ⟨first.unmarked_restore stored, by split <;> decide⟩, ih others⟩

theorem unmarked_addComment {comment : Text} (remark : Unmarked comment)
    (all : ∀ t ∈ xs, Unmarked t) : ∀ t ∈ addComment comment xs, Unmarked t := by
  induction xs with
  | nil => exact forall_mem_singleton.mpr remark
  | cons s r ih =>
    obtain ⟨first, others⟩ := forall_mem_cons.mp all
    cases r with
    | nil =>
      exact forall_mem_singleton.mpr
        (unmarked_append.mpr ⟨first, seamed_unmarked.cons (by decide) remark⟩)
    | cons next r => exact forall_mem_cons.mpr ⟨first, ih others⟩

theorem unmarked_statementsOf {line : Text} (hu : Unmarked line) :
    ∀ statement ∈ statementsOf line, Unmarked statement := by
  obtain ⟨bare, remark⟩ := Lexical.unmarked_splitComment hu
  obtain ⟨intact, stored⟩ := Lexical.intact_protect bare
  have hs := seamed_intact (protect [] (Lexical.splitComment line).1).2.length
  have rows := hs.splitOn '\n' (by decide) (holds_respellAndBreak hs intact)
  have statements := forall_mem_flatMap.mpr fun row hi =>
    unmarked_statementsOfParts stored (hs.splitTop ';' (by decide) (rows row hi))
  unfold statementsOf
  dsimp only
  split
  · next comment given => exact unmarked_addComment (remark comment given) statements
  · exact statements

theorem unmarked_layStatements (wd d : Nat) (all : ∀ t ∈ xs, Unmarked t) :
    ∀ line ∈ (layStatements wd d xs).1, Unmarked line := by
  induction xs generalizing d with
  | nil => simp [layStatements]
  | cons stmt r ih =>
    obtain ⟨first, others⟩ := forall_mem_cons.mp all
    unfold layStatements
    dsimp only
    rw [cons_append, forall_mem_cons, forall_mem_append]
    refine ⟨unmarked_append.mpr ⟨(isPlainText_indent _ _).unmarked, first⟩, ?_, ih _ others⟩
    split <;> simp [Unmarked]

theorem unmarked_laySegments (width d : Nat) {segments : List Segment}
    (all : ∀ segment ∈ segments, Unmarked segment.held) :
    ∀ line ∈ laySegments width d segments, Unmarked line := by
  induction segments generalizing d with
  | nil => simp [laySegments]
  | cons segment r ih =>
    obtain ⟨first, others⟩ := forall_mem_cons.mp all
    cases segment with
    | verbatim row => exact forall_mem_cons.mpr ⟨first, ih d others⟩
    | code t =>
      refine forall_mem_append.mpr ⟨unmarked_layStatements width d ?_, ih _ others⟩
      exact forall_mem_flatMap.mpr fun row among =>
        unmarked_statementsOf (unmarked_lines first row among)

theorem unmarked_reformat (wd : Nat) (hu : Unmarked t) : Unmarked (reformat wd t) := by
  have joined : Unmarked (Text.join ['\n'] (laySegments wd 0 (segments t))) :=
    seamed_unmarked.join (by decide) (unmarked_laySegments wd 0 (unmarked_segments hu))
  exact unmarked_append.mpr ⟨seamed_unmarked.trimEnd joined, by decide⟩

end Reformat

end Program

end PrimePlus
