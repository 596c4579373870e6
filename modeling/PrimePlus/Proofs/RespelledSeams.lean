import PrimePlus.Construct.Conditional
import PrimePlus.Construct.Keyword
import PrimePlus.Construct.Operator
import PrimePlus.Proofs.MatchSeams

/-!
Keywords, operators and conditionals are respelled at seams.
-/

namespace PrimePlus.Construct

open List hiding all any

open Regex
open Lexical (IsPlainText Seamed isPlain_of_isBlank)
open Lexical.Seamed (Scans)

variable {P : Text → Prop} (hs : Seamed P) {t l next : Text}

/-- A rewriting that counts as done only where it changes the line. -/
theorem holds_of_changed {new : Text} (hit : (if new = l then none else some new) = some next)
    (written : P new) : P next := by
  split at hit
  · cases hit
  · cases hit
    exact written

section Operators

theorem guarded_updatePattern : updatePattern.Guarded :=
  guarded (by simp +decide [updatePattern, nameStart, vocabulary])

theorem guarded_conversion {type : String} (mem : type ∈ ["<int>", "<string>"]) :
    (conversion type).Guarded := by
  simp only [mem_cons, not_mem_nil, or_false] at mem
  rcases mem with rfl | rfl <;> exact guarded (by simp +decide [conversion, vocabulary])

variable {e : String × String}

theorem guarded_spacedOperator (mem : e ∈ wordOperators) : (spacedOperator e.1).Guarded := by
  simp only [wordOperators, mem_cons, not_mem_nil, or_false] at mem
  rcases mem with rfl | rfl | rfl | rfl <;>
    exact guarded (by simp +decide [spacedOperator, vocabulary])

theorem guarded_constant (mem : e ∈ constants) : (all [edge, lit e.1, edge]).Guarded := by
  simp only [constants, mem_cons, not_mem_nil, or_false] at mem
  rcases mem with rfl | rfl | rfl <;> exact guarded (by simp +decide [vocabulary])

include hs

theorem scans_assign : Scans P assignFrom (fun _ _ => True) fun _ => false := by
  refine ⟨fun _ _ => hs.nil, fun prev c r _ => ?_⟩
  by_cases alone : (c = '=' && !(prev.any (":<>!=".toList.contains ·) || r.head? == some '='))
  · have equals : c = '=' := by simpa using (Bool.and_eq_true_iff.mp alone).1
    refine ⟨some c, [':', c], ?_, trivial, by simp, .inr (.inl ⟨by rw [equals]; decide, ?_⟩)⟩
    · rw [assignFrom, if_pos alone]
      rfl
    · exact hs.plain _ (by rw [equals]; decide)
  · refine ⟨some c, [c], ?_, trivial, by simp, .inl rfl⟩
    rw [assignFrom, if_neg alone]
    rfl

theorem holds_assignments (whole : P t) : P (assignments t) :=
  hs.scan (scans_assign hs) none trivial [] whole (by simp)

theorem scans_negate :
    Scans P (fun s : Option Char × Bool => negateFrom s.1 s.2) (fun _ _ => True)
      fun _ => false := by
  refine ⟨fun _ _ => hs.nil, ?_⟩
  rintro ⟨last, passing⟩ c r -
  by_cases mark : c = '!'
  · refine ⟨(some ' ', true), (if last.all fun c => c == ' ' || c == '(' then [] else [' ']) ++
      "NOT ".toList, ?_, trivial, by simp, .inr (.inl ⟨by rw [mark]; decide, ?_⟩)⟩
    · simp only [negateFrom, if_pos mark]
    · exact hs.plain _ (by split <;> decide)
  · by_cases passed : (passing && Unicode.isBlank c)
    · have hp := isPlain_of_isBlank (Bool.and_eq_true_iff.mp passed).2
      refine ⟨(last, true), [], ?_, trivial, by simp, .inr (.inl ⟨hp, hs.nil⟩)⟩
      simp only [negateFrom, if_neg mark, if_pos passed, nil_append]
    · refine ⟨(some c, false), [c], ?_, trivial, by simp, .inl rfl⟩
      simp only [negateFrom, if_neg mark, if_neg passed, singleton_append]

theorem holds_negations (whole : P t) : P (negations t) :=
  hs.scan (scans_negate hs) (none, false) trivial [] whole (by simp)

theorem holds_operators (whole : P t) : P (operators t) := by
  have update (hit : Match) (parts : hit.Parts P) : P (updateImage hit) := by
    have target := parts.group hs 1
    exact hs.append _ _ (hs.append₃ target (hs.plain _ (by decide)) target)
      (hs.cons (by decide) (parts.group hs 2))
  have sign : ∀ e ∈ signs, IsPlainText e.1.toList ∧ e.1.toList ≠ [] ∧
      IsPlainText e.2.toList := by decide
  have word : ∀ e ∈ wordOperators, IsPlainText e.2.toList := by decide
  have constant : ∀ e ∈ constants, IsPlainText e.2.toList := by decide
  apply holds_assignments hs
  refine foldlRecOn constants _ ?_ fun t pre e mem =>
    (guarded_constant mem).replaceAllWith hs (constant e mem) pre
  apply holds_negations hs
  refine foldlRecOn wordOperators _ ?_ fun t pre e mem =>
    (guarded_spacedOperator mem).replaceAllWith hs (word e mem) pre
  apply guarded_updatePattern.replaceAll hs update
  refine foldlRecOn signs _ ?_ fun t pre e mem => ?_
  · apply (guarded_conversion (by simp)).replaceAllWith hs (by decide)
    exact (guarded_conversion (by simp)).replaceAllWith hs (by decide) whole
  · obtain ⟨old, ne, new⟩ := sign e mem
    exact hs.replace old ne (hs.plain _ new) pre

theorem holds_of_operators? (hit : operators? l = some next) (whole : P l) : P next := by
  rw [operators?] at hit
  exact holds_of_changed hit (holds_operators hs whole)

end Operators

section Keywords

theorem guarded_smallWordPattern : smallWordPattern.Guarded :=
  guarded (by simp +decide [smallWordPattern, vocabulary])

theorem guarded_baseLiteralPattern : baseLiteralPattern.Guarded :=
  guarded (by simp +decide [baseLiteralPattern, vocabulary])

theorem guarded_guardPattern : guardPattern.Guarded :=
  guarded (by simp +decide [guardPattern, vocabulary])

theorem guarded_ifDoPattern : ifDoPattern.Guarded :=
  guarded (by simp +decide [ifDoPattern, vocabulary])

theorem guarded_rangePattern : rangePattern.Guarded :=
  guarded (by simp +decide [rangePattern, vocabulary])

theorem guarded_endWordPattern : endWordPattern.Guarded :=
  guarded (by simp +decide [endWordPattern, any, vocabulary])

theorem guarded_endlessPattern : endlessPattern.Guarded :=
  guarded (by simp +decide [endlessPattern, vocabulary])

theorem guarded_keyPattern : keyPattern.Guarded :=
  guarded (by simp +decide [keyPattern, vocabulary])

include hs

theorem holds_capitalize (whole : P t) : P (capitalize t) := by
  refine guarded_smallWordPattern.replaceAll hs (fun hit parts => ?_) whole
  split
  · exact hs.map_toUpper parts.text
  · exact parts.text

theorem holds_baseLiterals (whole : P t) : P (baseLiterals t) := by
  refine guarded_baseLiteralPattern.replaceAll hs (fun hit parts => ?_) whole
  have digits := hs.cons (c := '#') (by decide) (hs.map_toUpper (parts.group hs 4))
  have sign := hs.cons (c := ':') (by decide) (parts.group hs 1)
  exact hs.append₃ (hs.append _ _ digits sign) (parts.group hs 2) (parts.group hs 3)

theorem holds_writeOut (whole : P l) : P (writeOut l) := by
  apply guarded_rangePattern.replaceAllWith hs (by decide)
  have branch : P (ifDoPattern.replaceFirst (guardPattern.replaceAll l fun hit =>
      "IF NOT(".toList ++ hit.group 1 ++ ") THEN".toList) fun hit =>
        hit.group 1 ++ " THEN".toList) := by
    refine guarded_ifDoPattern.replaceFirst hs (fun hit parts => ?_) ?_
    · exact hs.append _ _ (parts.group hs 1) (hs.plain _ (by decide))
    · refine guarded_guardPattern.replaceAll hs (fun hit parts => ?_) whole
      exact hs.append₃ (hs.plain _ (by decide)) (parts.group hs 1) (hs.plain _ (by decide))
  split
  · exact hs.append _ _ (hs.trimEnd branch) (hs.plain _ (by decide))
  · exact branch

theorem holds_respell (d : Nat) (whole : P l) : P (respell d l) := by
  have word (s : String) (mem : s ∈ ["try", "catch"]) : (all [edge, lit s, edge]).Guarded := by
    simp only [mem_cons, not_mem_nil, or_false] at mem
    rcases mem with rfl | rfl <;> exact guarded (by simp +decide [vocabulary])
  have spelt (t : Text) (written : P t) :
      P (baseLiterals (capitalize (endlessPattern.replaceFirst (endWordPattern.replaceAllWith
        ((all [edge, lit "catch", edge]).replaceAllWith
          ((all [edge, lit "try", edge]).replaceAllWith t "IFERR") "THEN") "END;")
        fun hit => hit.group 1 ++ "WHILE 1 DO".toList))) := by
    apply holds_baseLiterals hs
    apply holds_capitalize hs
    refine guarded_endlessPattern.replaceFirst hs (fun hit parts => ?_) ?_
    · exact hs.append _ _ (parts.group hs 1) (hs.plain _ (by decide))
    · apply guarded_endWordPattern.replaceAllWith hs (by decide)
      apply (word "catch" (by simp)).replaceAllWith hs (by decide)
      exact (word "try" (by simp)).replaceAllWith hs (by decide) written
  unfold respell
  by_cases outside : d = 0
  · rw [if_pos outside, if_pos outside]
    refine guarded_keyPattern.replaceFirst hs (fun hit parts => ?_) (spelt l whole)
    exact hs.append _ _ (hs.append₃ (parts.group hs 1) (hs.plain _ (by decide))
      (parts.group hs 2)) (hs.plain _ (by decide))
  · rw [if_neg outside, if_neg outside]
    exact spelt _ (holds_writeOut hs whole)

theorem holds_of_keywords? {d : Nat} (hit : keywords? d l = some next) (whole : P l) : P next := by
  exact holds_of_changed hit (holds_respell hs d whole)

end Keywords

section Conditionals

open Conditional

variable {prev : Option Char} {lead tail : Text}

theorem eq_of_cutQuestion? {d : Int}
    (cut : cutQuestion? d prev t = some (lead, tail)) : t = lead ++ '?' :: tail := by
  induction t generalizing d prev lead with
  | nil => cases cut
  | cons c r ih =>
    unfold cutQuestion? at cut
    split at cut
    · next here =>
      simp only [Bool.and_eq_true, decide_eq_true_eq] at here
      cases cut
      rw [here.1.1]
      rfl
    · obtain ⟨⟨inner, v⟩, later, eq⟩ := Option.map_eq_some_iff.mp cut
      cases eq
      rw [ih later, cons_append]

theorem eq_of_cutColon? {d : Int} {pending : Nat}
    (cut : cutColon? d pending prev t = some (lead, tail)) : t = lead ++ ':' :: tail := by
  induction t generalizing d pending prev lead with
  | nil => cases cut
  | cons c r ih =>
    have further {pending : Nat}
        (cut : ((cutColon? (d + Lexical.bracketStep c) pending (some c) r).map
          fun hit => (c :: hit.1, hit.2)) = some (lead, tail)) :
        c :: r = lead ++ ':' :: tail := by
      obtain ⟨⟨inner, v⟩, later, eq⟩ := Option.map_eq_some_iff.mp cut
      cases eq
      rw [ih later, cons_append]
    unfold cutColon? at cut
    split at cut
    · exact further cut
    · split at cut
      · next here =>
        simp only [Bool.and_eq_true, decide_eq_true_eq] at here
        split at cut
        · cases cut
          rw [here.1.1]
          rfl
        · exact further cut
      · exact further cut

include hs

theorem holds_of_split? {cond whenTrue whenFalse : Text}
    (hit : split? t = some (cond, whenTrue, whenFalse)) (whole : P t) :
    P cond ∧ P whenTrue ∧ P whenFalse := by
  unfold split? at hit
  simp only [Option.bind_eq_bind, Option.bind_eq_some_iff] at hit
  obtain ⟨⟨lead, r⟩, question, ⟨a, second⟩, colon, chosen⟩ := hit
  split at chosen
  · cases chosen
  · cases chosen
    obtain ⟨pre, after⟩ := hs.cut_around (by decide) (eq_of_cutQuestion? question ▸ whole)
    have branches : r = a ++ ':' :: second := eq_of_cutColon? colon
    rw [branches] at after
    obtain ⟨left, right⟩ := hs.cut_around (by decide) after
    exact ⟨hs.trim pre, hs.trim left, hs.trim right⟩

theorem holds_of_callFrom? {fuel : Nat} (hit : callFrom? fuel t = some next) (whole : P t) :
    P next := by
  induction fuel generalizing t next with
  | zero => cases hit
  | succ fuel ih =>
    obtain ⟨⟨cond, whenTrue, whenFalse⟩, parts, rfl⟩ := Option.map_eq_some_iff.mp hit
    obtain ⟨first, second, third⟩ := holds_of_split? hs parts whole
    have branch {t : Text} (whole : P t) : P ((callFrom? fuel t).getD t) := by
      cases inner : callFrom? fuel t with
      | none => exact whole
      | some call => exact ih inner whole
    have comma : P ", ".toList := hs.plain _ (by decide)
    have head := hs.append₃ (hs.plain "IFTE(".toList (by decide)) first comma
    exact hs.append _ _ (hs.append₃ (hs.append _ _ head (branch second)) comma
      (branch third)) (hs.plain _ (by decide))

theorem holds_group (prev : Option Char) {a : Text} (whole : P a) : P (group prev a) := by
  have enclosed {t : Text} (whole : P t) : P ('(' :: t ++ [')']) :=
    hs.append _ _ (hs.cons (by decide) whole) (hs.singleton (by decide))
  unfold group
  split
  · next call hit =>
    have written : P call := holds_of_callFrom? hs hit whole
    split
    · exact enclosed written
    · exact written
  · exact enclosed whole

/-- The parentheses of a text are plain, so it is cut around each pair of them. -/
theorem holds_lowerFrom (fuel : Nat) (prev : Option Char) (written : Text)
    (whole : P (written ++ t)) : P (written ++ lowerFrom fuel prev t) := by
  induction fuel generalizing prev t written with
  | zero => exact whole
  | succ fuel ih =>
    cases t with
    | nil => exact whole
    | cons c r =>
      unfold lowerFrom
      split
      · next opens =>
        subst opens
        split
        · exact whole
        · next hi v cut =>
          obtain ⟨u, ha⟩ := hs.cut_around (by decide) whole
          obtain ⟨inner, outer⟩ := hs.cutParens? cut ha
          exact hs.append _ _ u (hs.append _ _
            (holds_group hs prev (ih none [] inner)) (ih (some ')') [] outer))
      · have joined : P (written ++ [c] ++ r) := by simpa using whole
        simpa using ih (some c) (written ++ [c]) joined

theorem holds_of_conditional? {d : Nat} (hit : conditional? d l = some next)
    (whole : P l) : P next := by
  unfold conditional? at hit
  split at hit
  · cases hit
  · exact holds_of_changed hit (holds_lowerFrom hs l.length none [] whole)

end Conditionals

end PrimePlus.Construct
