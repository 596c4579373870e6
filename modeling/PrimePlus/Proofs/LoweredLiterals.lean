import PrimePlus.Proofs.IndentedLayout
import PrimePlus.Proofs.InertLiterals
import PrimePlus.Proofs.SmallLiterals

/-!
Lowering keeps the order of placeholders.
-/

namespace PrimePlus

open List hiding all any
open Text

open Lexical
open Lexical.Nesting (ofLine)

namespace Lexical

theorem hidden_trimStart (t : Text) : hidden (trimStart t) = hidden t := by
  have hb : IsPlainText (t.takeWhile Unicode.isBlank) := fun c mem =>
    isPlain_of_isBlank (mem_takeWhile_imp mem)
  have whole : hidden (t.takeWhile Unicode.isBlank ++ trimStart t) = hidden t :=
    congrArg hidden takeWhile_append_dropWhile
  rwa [hidden_append, hidden_of_isPlainText hb] at whole

theorem hidden_trimEnd (t : Text) : hidden (trimEnd t) = hidden t := by
  have back (t : Text) : hidden t.reverse = (hidden t).reverse := filter_reverse
  show hidden (trimStart t.reverse).reverse = _
  rw [back, hidden_trimStart, back, reverse_reverse]

theorem hidden_trim (t : Text) : hidden (trim t) = hidden t := by
  rw [trim, hidden_trimEnd, hidden_trimStart]

theorem hidden_foldl {α : Type} {xs : List α} {f : Text → α → Text}
    (each : ∀ a ∈ xs, ∀ t, hidden (f t a) = hidden t) (t : Text) :
    hidden (xs.foldl f t) = hidden t :=
  foldlRecOn (motive := fun u => hidden u = hidden t) xs f rfl fun _ pre a mem =>
    (each a mem _).trans pre

end Lexical

open Regex

namespace Construct

variable {t line next : Text}

section Operators

def comparisons (t : Text) : Text :=
  signs.foldl (fun t sign => Text.replace t sign.1.toList sign.2.toList)
    ((conversion "<string>").replaceAllWith ((conversion "<int>").replaceAllWith t "IP(") "STRING(")

theorem hidden_operators (alone : updatePattern.isMatch (comparisons t) = false) :
    hidden (operators t) = hidden t := by
  have signed : ∀ e ∈ signs, IsPlainText e.1.toList ∧ e.1.toList ≠ [] ∧
      IsPlainText e.2.toList := by decide
  have compared : hidden (comparisons t) = hidden t := by
    have type (s : String) (mem : s ∈ ["<int>", "<string>"]) : (conversion s).ReadsPlain := by
      simp only [mem_cons, not_mem_nil, or_false] at mem
      rcases mem with rfl | rfl <;> simp +decide [conversion, vocabulary]
    rw [comparisons, hidden_foldl, hidden_replaceAllWith (type _ (by simp)) (by decide),
      hidden_replaceAllWith (type _ (by simp)) (by decide)]
    intro e mem t
    obtain ⟨old, ne, new⟩ := signed e mem
    exact (seamed_isPlainText.scans_replace old ne new).hidden_eq (by simp [IsPlainText])
  have word : ∀ e ∈ wordOperators, (spacedOperator e.1).ReadsPlain ∧ IsPlainText e.2.toList := by
    simp only [wordOperators, mem_cons, not_mem_nil, or_false]
    rintro e (rfl | rfl | rfl | rfl) <;>
      exact ⟨by simp +decide [spacedOperator, vocabulary], by decide⟩
  have constant : ∀ e ∈ constants, (all [edge, lit e.1, edge]).ReadsPlain ∧
      IsPlainText e.2.toList := by
    simp only [constants, mem_cons, not_mem_nil, or_false]
    rintro e (rfl | rfl | rfl) <;> exact ⟨by simp +decide [vocabulary], by decide⟩
  have kept : updatePattern.replaceAll (comparisons t) updateImage = comparisons t :=
    if_neg (by simp [alone])
  have assigned (t : Text) : hidden (assignments t) = hidden t :=
    (scans_assign seamed_isPlainText).hidden_eq trivial
  have negated (t : Text) : hidden (negations t) = hidden t :=
    (scans_negate seamed_isPlainText).hidden_eq (s := (none, false)) trivial
  show hidden (assignments (constants.foldl _ (negations (wordOperators.foldl _
    (updatePattern.replaceAll (comparisons t) updateImage))))) = _
  rw [assigned, hidden_foldl fun e mem => hidden_replaceAllWith (constant e mem).1
    (constant e mem).2, negated, hidden_foldl fun e mem =>
    hidden_replaceAllWith (word e mem).1 (word e mem).2, kept, compared]

end Operators

section Keywords

theorem hidden_writeOut (unguarded : guardPattern.isMatch line = false)
    (whole : ifDoPattern.isMatch line = false) : hidden (writeOut line) = hidden line := by
  have range : rangePattern.ReadsPlain := by simp +decide [rangePattern, vocabulary]
  have guard : guardPattern.replaceAll line (fun hit =>
      "IF NOT(".toList ++ hit.group 1 ++ ") THEN".toList) = line := if_neg (by simp [unguarded])
  have branch (image : Match → Text) : ifDoPattern.replaceFirst line image = line := by
    have missed : ifDoPattern.find? line = none := by simpa [isMatch] using whole
    rw [replaceFirst, missed]
  unfold writeOut
  rw [hidden_replaceAllWith range (by decide), guard, branch]
  split
  · have ending : IsPlainText " END;".toList := by decide
    rw [hidden_append, hidden_of_isPlainText ending, hidden_trimEnd, append_nil]
  · rfl

theorem hidden_respell (d : Nat) (unguarded : guardPattern.isMatch line = false)
    (whole : ifDoPattern.isMatch line = false) : hidden (respell d line) = hidden line := by
  have guard (s : String) (mem : s ∈ ["try", "catch"]) : (all [edge, lit s, edge]).ReadsPlain := by
    simp only [mem_cons, not_mem_nil, or_false] at mem
    rcases mem with rfl | rfl <;> simp +decide [vocabulary]
  have ending : endWordPattern.ReadsPlain := by simp +decide [endWordPattern, any, vocabulary]
  have endless : endlessPattern.ReadsPlain := by simp +decide [endlessPattern, vocabulary]
  have small : smallWordPattern.ReadsPlain := by simp +decide [smallWordPattern, vocabulary]
  have based : baseLiteralPattern.ReadsPlain := by simp +decide [baseLiteralPattern, vocabulary]
  have key : keyPattern.ReadsPlain := by simp +decide [keyPattern, vocabulary]
  have capitals (t : Text) : hidden (capitalize t) = hidden t := by
    refine hidden_replaceAll_of_readsPlain small (fun hit gs => ?_) t
    split
    · exact seamed_isPlainText.map_toUpper (gs 0)
    · exact gs 0
  have numerals (t : Text) : hidden (baseLiterals t) = hidden t := by
    refine hidden_replaceAll_of_readsPlain based (fun hit gs => ?_) t
    have digits := seamed_isPlainText.cons (c := '#') (by decide)
      (seamed_isPlainText.map_toUpper (gs 4))
    have sign := seamed_isPlainText.cons (c := ':') (by decide) (gs 1)
    exact seamed_isPlainText.append₃ (seamed_isPlainText.append _ _ digits sign) (gs 2) (gs 3)
  have spelt (t : Text) : hidden (baseLiterals (capitalize (endlessPattern.replaceFirst
      (endWordPattern.replaceAllWith ((all [edge, lit "catch", edge]).replaceAllWith
        ((all [edge, lit "try", edge]).replaceAllWith t "IFERR") "THEN") "END;")
      fun hit => hit.group 1 ++ "WHILE 1 DO".toList))) = hidden t := by
    rw [numerals, capitals, hidden_replaceFirst endless fun hit gs =>
      seamed_isPlainText.append _ _ (gs 1) (by decide), hidden_replaceAllWith ending (by decide),
      hidden_replaceAllWith (guard _ (by simp)) (by decide),
      hidden_replaceAllWith (guard _ (by simp)) (by decide)]
  unfold respell
  by_cases outside : d = 0
  · rw [if_pos outside, if_pos outside, hidden_replaceFirst key fun hit gs =>
      seamed_isPlainText.append _ _ (seamed_isPlainText.append₃ (gs 1) (by decide) (gs 2))
        (by decide)]
    exact spelt line
  · rw [if_neg outside, if_neg outside]
    exact (spelt _).trans (hidden_writeOut unguarded whole)

end Keywords

section Conditionals

open Conditional

theorem hidden_of_callFrom? {fuel : Nat} (hit : callFrom? fuel t = some next) :
    hidden next = hidden t := by
  induction fuel generalizing t next with
  | zero => cases hit
  | succ fuel ih =>
    obtain ⟨⟨cond, yes, no⟩, parts, rfl⟩ := Option.map_eq_some_iff.mp hit
    have branch (t : Text) : hidden ((callFrom? fuel t).getD t) = hidden t := by
      cases inner : callFrom? fuel t with
      | none => rfl
      | some call => exact ih inner
    unfold split? at parts
    simp only [Option.bind_eq_bind, Option.bind_eq_some_iff] at parts
    obtain ⟨⟨lead, r⟩, question, ⟨a, second⟩, colon, chosen⟩ := parts
    split at chosen
    · cases chosen
    · cases chosen
      have comma : hidden ", ".toList = [] := by decide
      have opening : hidden "IFTE(".toList = [] := by decide
      have closing : hidden [')'] = [] := by decide
      have branches : r = a ++ ':' :: second := eq_of_cutColon? colon
      rw [eq_of_cutQuestion? question, branches]
      simp only [hidden_append, branch, hidden_trim, comma, opening, closing, append_nil,
        nil_append, hidden_cons (by decide : isPlain '?'),
        hidden_cons (by decide : isPlain ':'), append_assoc]

theorem hidden_group (prev : Option Char) (inside : Text) :
    hidden (group prev inside) = hidden inside := by
  have enclosed (t : Text) : hidden ('(' :: t ++ [')']) = hidden t := by
    have closing : hidden [')'] = [] := by decide
    rw [hidden_append, hidden_cons (by decide), closing, append_nil]
  unfold group
  split
  · next call hit =>
    have written : hidden call = hidden inside := hidden_of_callFrom? hit
    split
    · rw [enclosed, written]
    · exact written
  · exact enclosed inside

theorem hidden_lowerFrom (fuel : Nat) (prev : Option Char) (t : Text) :
    hidden (lowerFrom fuel prev t) = hidden t := by
  induction fuel generalizing prev t with
  | zero => rfl
  | succ fuel ih =>
    cases t with
    | nil => rfl
    | cons c rest =>
      unfold lowerFrom
      split
      · next opens =>
        subst opens
        split
        · rfl
        · next inside behind cut =>
          rw [hidden_append, hidden_group, ih, ih, hidden_cons (by decide), eq_of_cutParens? cut,
            hidden_append, hidden_cons (by decide)]
      · rw [← singleton_append, hidden_append, ih, ← hidden_append, singleton_append]

theorem hidden_conditional (d : Nat) (line : Text) :
    hidden ((conditional? d line).getD line) = hidden line := by
  unfold conditional?
  split
  · rfl
  · dsimp only
    split
    · rfl
    · exact hidden_lowerFrom line.length none line

end Conditionals

end Construct

namespace Layout

open Program (lineLiterals)

variable {st : Store} {t : Text}

section Statements

theorem hidden_tidy (line : Text) : hidden (tidy line) = hidden line := by
  have assignment : assignmentPattern.ReadsPlain := by simp +decide [assignmentPattern, vocabulary]
  have separator : beforeSeparatorPattern.ReadsPlain := by
    simp +decide [beforeSeparatorPattern, vocabulary]
  have opening : afterOpeningPattern.ReadsPlain := by simp +decide [afterOpeningPattern, vocabulary]
  rw [tidy, hidden_trim, hidden_replaceAllWith opening (by decide),
    hidden_replaceAll_of_readsPlain separator fun _ gs => gs 1,
    hidden_replaceAllWith assignment (by decide)]

theorem flatMap_hidden_statementsOfParts (parts : List Text) :
    (statementsOfParts parts).flatMap Lexical.hidden = parts.flatMap Lexical.hidden := by
  have hb {part : Text} (hb : isBlankText part) : hidden part = [] :=
    hidden_of_isPlainText fun c mem => isPlain_of_isBlank (all_eq_true.mp hb c mem)
  have ending : hidden [';'] = [] := by decide
  induction parts with
  | nil => rfl
  | cons part r ih =>
    cases r with
    | nil =>
      rw [statementsOfParts]
      split
      · next empty => simp [hb empty]
      · simp [hidden_trim]
    | cons next r =>
      rw [statementsOfParts, flatMap_cons, ← ih]
      · split
        · next empty => simp [hb empty]
        · rw [flatMap_cons, hidden_append, hidden_trim, ending, append_nil]
      · simp

theorem flatMap_hidden_statements (line : Text) :
    (statements line).flatMap Lexical.hidden = hidden line := by
  have feed : IsPlainText ['\n'] := by decide
  have mark : IsPlainText [';'] := by decide
  have row (t : Text) : (statementsOfParts (splitTop ';' (tidy t))).flatMap Lexical.hidden =
      hidden t := by
    rw [flatMap_hidden_statementsOfParts, ← hidden_join mark, splitTop,
      join_splitTopFrom, hidden_tidy]
  rw [statements, flatMap_assoc]
  simp only [row]
  rw [← hidden_join feed, join_splitOn]

end Statements

section Comment

theorem comment?_restore (quoted : ∀ a ∈ st, IsQuoted a) (sealed : Sealed st.length t)
    (noEscape : '\\' ∉ t) (ha : ¬"//".toList <:+: t) {tail : Text} (o : tail.head? ≠ some '/') :
    comment? (restore st t ++ tail) =
      (comment? tail).map fun cut => (restore st t ++ cut.1, cut.2) := by
  induction sealed with
  | nil => simp
  | @char c t hp more ih =>
    have quote := ne_quote_of_isPlain hp
    have onward := ih (mt (mem_cons_of_mem c) noEscape)
      fun inner => ha (inner.trans (suffix_cons c t).isInfix)
    have slash : c = '/' → (restore st t ++ tail).head? ≠ some '/' := by
      intro eq second
      rw [head?_append, head?_restore fun a mem => (quoted a mem).isLiteral] at second
      cases t with
      | nil => exact o second
      | cons d t =>
        rw [eq, Option.some.inj second] at ha
        exact ha ⟨[], t, rfl⟩
    rw [restore_cons_of_ne _ quote, cons_append, comment?_cons quote
      (fun eq => noEscape (eq ▸ mem_cons_self)) slash, onward, Option.map_map]
    rfl
  | @held i t hi _ ih =>
    have onward := ih (mt (mem_append_right _) noEscape)
      fun inner => ha (inner.trans (suffix_append _ t).isInfix)
    rw [restore_placeholder_append, getElem?_eq_getElem hi, Option.getD_some,
      append_assoc, comment?_quoted (quoted _ (getElem_mem hi)), onward,
      Option.map_map]
    congr 1
    funext cut
    simp

end Comment

section Laid

variable {comment : Option Text}

theorem flatMap_withComment {β : Type} {read : Text → List β} {xs : List Text}
    (hv : ∀ s ∈ xs, read (s ++ remarkOf comment) = read s) :
    (withComment comment xs).flatMap read = xs.flatMap read := by
  induction xs with
  | nil => rfl
  | cons s r ih =>
    obtain ⟨here, later⟩ := forall_mem_cons.mp hv
    cases r with
    | nil => simpa [withComment, remarkOf] using here
    | cons next r =>
      show read s ++ (withComment comment (next :: r)).flatMap read = _
      rw [ih later]
      rfl

theorem lineLiterals_restore (quoted : ∀ a ∈ st, IsQuoted a) (sealed : Sealed st.length t)
    (noEscape : '\\' ∉ t) (ha : ¬"//".toList <:+: t) (remark : ∀ t ∈ comment, "//".toList <+: t)
    (wd level : Nat) :
    lineLiterals (restore st (indent wd level ++ t)) = literals (restore st t) ∧
      lineLiterals (restore st (indent wd level ++ t) ++ remarkOf comment) =
        literals (restore st t) := by
  have hb : ∀ c ∈ indent wd level, Unicode.isBlank c := by
    intro c mem
    rw [eq_of_mem_replicate mem]
    decide
  have bare : lineLiterals (restore st t) = literals (restore st t) := by
    have missed := @comment?_restore _ _ quoted sealed noEscape ha [] (by simp)
    rw [append_nil] at missed
    exact Program.lineLiterals_of_none missed
  rw [restore_indent_append, append_assoc]
  refine ⟨(literals_splitComment_indent hb _).trans bare,
    (literals_splitComment_indent hb _).trans ?_⟩
  cases comment with
  | none => rwa [remarkOf, Option.map_none, Option.getD_none, append_nil]
  | some comment =>
    obtain ⟨more, rfl⟩ := remark comment rfl
    have hit := @comment?_restore _ _ quoted sealed noEscape ha
      (' ' :: ("//".toList ++ more)) (by simp)
    rw [remarkOf, Option.map_some, Option.getD_some, splitComment_of_some hit,
      literals_trimEnd, literals_append_of_quoteFree (by simp)]

/-- Whether a statement holds no line feed, and outside literals no backslash and no comment. -/
def isBare (s : Text) : Bool :=
  s.all (fun c => c != '\\' && c != '\n') && !decide ("//".toList <:+: s)

theorem flatMap_lineLiterals_lay {code line : Text} (clear : IsClear code) (hc : IsClosed code)
    (sealed : Sealed (protect [] code).2.length line)
    (eq : hidden line = hidden (protect [] code).1)
    (bare : ∀ s ∈ statements line, isBare s) (one : '\n' ∉ code)
    (remark : ∀ t ∈ comment, "//".toList <+: t ∧ '\n' ∉ t) (wd d : Nat) :
    (lay wd d (protect [] code).2 comment line).flatMap lineLiterals = literals code ∧
      ∀ t ∈ lay wd d (protect [] code).2 comment line, '\n' ∉ t := by
  have quoted : ∀ a ∈ (protect [] code).2, IsQuoted a := fun a mem =>
    have among := mem_literals_of_mem_protect mem
    (isLiteral_of_mem_literals among).isQuoted (clear _ (mem_literals.mp among))
  have stored : ∀ a ∈ (protect [] code).2, '\n' ∉ a := fun a mem feed =>
    one (subset_of_mem_literals (mem_literals_of_mem_protect mem) feed)
  have sound := Store.isSound_protect (unmarked_not_mem clear.unmarked)
  have pieces := holds_statements (seamed_sealed _) sealed
  have whole := Sealed.flatMap_literals_restore sound pieces
    (sealed_protect clear.unmarked hc) ((flatMap_hidden_statements line).trans eq)
  rw [restore_protect_self clear.unmarked] at whole
  generalize (protect [] code).2 = st at quoted stored pieces whole ⊢
  have behind : '\n' ∉ remarkOf comment := by
    cases comment with
    | none => simp [remarkOf]
    | some comment => simpa [remarkOf] using (remark comment rfl).2
  have laid (xs : List Text) (hi : ∀ s ∈ xs, s ∈ statements line) (d : Nat) :
      (∀ t ∈ (linesFrom wd d xs).map (restore st),
        lineLiterals (t ++ remarkOf comment) = lineLiterals t ∧ '\n' ∉ t) ∧
      ((linesFrom wd d xs).map (restore st)).flatMap lineLiterals =
        xs.flatMap fun s => literals (restore st s) := by
    induction xs generalizing d with
    | nil => exact ⟨by simp [linesFrom], rfl⟩
    | cons s r ih =>
      obtain ⟨here, later⟩ := forall_mem_cons.mp hi
      have free := bare s here
      simp only [isBare, Bool.and_eq_true, all_eq_true, bne_iff_ne, Bool.not_eq_true',
        decide_eq_false_iff_not] at free
      obtain ⟨alone, added⟩ := lineLiterals_restore quoted (pieces s here)
        (fun mem => (free.1 _ mem).1 rfl) free.2 (fun t given => (remark t given).1) wd
        ((ofLine s).indentLevel d)
      have unbroken : '\n' ∉ restore st (indent wd ((ofLine s).indentLevel d) ++ s) := by
        rw [restore_indent_append, mem_append, not_or]
        exact ⟨fun mem => absurd (eq_of_mem_replicate mem) (by decide),
          notMem_restoreFrom stored (fun mem => (free.1 _ mem).2 rfl) 0⟩
      obtain ⟨others, eq⟩ := ih later ((ofLine s).depthAfter d)
      rw [linesFrom, map_cons, flatMap_cons, eq, alone]
      exact ⟨forall_mem_cons.mpr ⟨⟨added.trans alone.symm, unbroken⟩, others⟩, rfl⟩
  obtain ⟨each, eq⟩ := laid _ (fun _ => id) d
  rw [lay, flatMap_withComment fun t mem => (each t mem).1, eq, whole]
  refine ⟨rfl, forall_mem_withComment fun t mem => ⟨(each t mem).2, ?_⟩⟩
  rw [mem_append, not_or]
  exact ⟨(each t mem).2, behind⟩

end Laid

end Layout

end PrimePlus
