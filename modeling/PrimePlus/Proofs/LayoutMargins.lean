import PrimePlus.Proofs.CodeLines
import PrimePlus.Proofs.ReformatStability

/-!
What the margins of a program that is laid out depend on. The block words of a statement are
counted with its literals and its comment in place.
-/

namespace PrimePlus

open List Text
open Unicode (isBlank isNameChar)

variable {s s' t t' line line' : Text}

theorem Regex.notMem_replaceAllWith (r : Regex) {c : Char} {image : String} (absent : c ∉ t)
    (free : c ∉ image.toList) : c ∉ r.replaceAllWith t image := by
  rw [replaceAllWith, replaceAll_eq_assemble]
  refine pieces_induction
    (fun cur pieces => c ∉ cur.after → c ∉ assemble (fun _ => image.toList) pieces)
    (fun _ _ _ => by simp [assemble]) ?_ ?_ absent
  · intro cur d tl pieces _ ha ih away
    rw [ha, mem_cons, not_or] at away
    rw [assemble, mem_cons, not_or]
    exact ⟨away.1, ih away.2⟩
  · intro hit pieces _ isIn ih away
    rw [(isIn.start.after_eq isIn.stop isIn.ordered).1, mem_append, not_or] at away
    rw [assemble, mem_append, not_or]
    exact ⟨free, ih away.2⟩

namespace Lexical

def SameBlocks (s s' : Text) : Prop :=
  (effects s).count .opens = (effects s').count .opens ∧
    (effects s).count .closes = (effects s').count .closes

instance (s s' : Text) : Decidable (SameBlocks s s') :=
  inferInstanceAs (Decidable (_ ∧ _))

theorem SameBlocks.append {c : Char} (neutral : isNeutral c) (first : SameBlocks s s')
    (second : SameBlocks t t') : SameBlocks (s ++ c :: t) (s' ++ c :: t') := by
  simp only [SameBlocks, effects_append_neutral neutral, count_append] at *
  omega

/-- Literals that are equal, or that agree and do not read as placeholders. -/
def AlikeLiteral (agree : Text → Text → Prop) (a b : Text) : Prop :=
  a = b ∨ isPlaceholder a = false ∧ isPlaceholder b = false ∧ agree a b

def AlikePart (agree : Text → Text → Prop) : Part → Part → Prop
  | .literal a, .literal b => AlikeLiteral agree a b
  | part, part' => part = part'

/-- Lines that are the same but for the contents of literals and for their comments. -/
def AlikeLine (agree : Text → Text → Prop) (line line' : Text) : Prop :=
  Forall₂ (AlikePart agree) (parts (splitComment line).1) (parts (splitComment line').1) ∧
    Forall₂ agree (splitComment line).2.toList (splitComment line').2.toList

section

variable {agree : Text → Text → Prop} [DecidableRel agree]

instance : DecidableRel (AlikePart agree)
  | .literal _, .literal _ => inferInstanceAs (Decidable (_ ∨ _))
  | .code _, _ | .unclosed _, _ | .literal _, .code _ | .literal _, .unclosed _ =>
    inferInstanceAs (Decidable (_ = _))

instance (line line' : Text) : Decidable (AlikeLine agree line line') :=
  inferInstanceAs (Decidable (_ ∧ _))

end

theorem protectParts_alike {agree : Text → Text → Prop} {xs list' : List Part}
    (alike : Forall₂ (AlikePart agree) xs list') {st store' : Store}
    (stores : Forall₂ (AlikeLiteral agree) st store') :
    (protectParts st xs).1 = (protectParts store' list').1 ∧
      Forall₂ (AlikeLiteral agree) (protectParts st xs).2 (protectParts store' list').2 := by
  have ho {part : Part} {r rest' : List Part} {st store' : Store}
      (ih : (protectParts st r).1 = (protectParts store' rest').1 ∧
        Forall₂ (AlikeLiteral agree) (protectParts st r).2 (protectParts store' rest').2) :
      part.text ++ (protectParts st r).1 = part.text ++ (protectParts store' rest').1 ∧
        Forall₂ (AlikeLiteral agree) (protectParts st r).2 (protectParts store' rest').2 :=
    ⟨congrArg (part.text ++ ·) ih.1, ih.2⟩
  induction alike generalizing st store' with
  | nil => exact ⟨rfl, stores⟩
  | @cons part part' r rest' first _ ih =>
    cases part with
    | code | unclosed =>
      obtain rfl : _ = part' := by
        cases part' <;> exact first
      exact ho (ih stores)
    | literal a =>
      cases part' with
      | code | unclosed => cases first
      | literal b =>
        have held : isPlaceholder a = isPlaceholder b ∧ (isPlaceholder a → a = b) := by
          rcases first with rfl | ⟨hp, plain', -⟩
          · simp
          · simp [hp, plain']
        unfold protectParts
        rw [← held.1]
        split
        · next marked =>
          obtain rfl := held.2 marked
          exact @ho (.literal a) _ _ _ _ (ih stores)
        · rw [stores.length_eq]
          exact @ho (.literal (placeholder store'.length)) _ _ _ _
            (ih (rel_append stores (.cons first .nil)))

variable {st store' : Store}

theorem exists_contents {a : Text} (literal : IsLiteral a) : ∃ s, a = '"' :: (s ++ ['"']) := by
  obtain ⟨b, rfl, hc⟩ := literal
  obtain ⟨s, rfl⟩ := exists_of_literalLength? hc
  exact ⟨s, rfl⟩

theorem sameBlocks_quoted :
    SameBlocks ('"' :: (s ++ ['"'])) ('"' :: (s' ++ ['"'])) ↔ SameBlocks s s' := by
  have quote : isNeutral '"' := by decide +kernel
  have inside (s : Text) : effects ('"' :: (s ++ ['"'])) = effects s :=
    (effects_append_neutral quote [] (s ++ ['"'])).trans
      (effects_append_neutrals (by simpa using quote) s)
  rw [SameBlocks, inside, inside]
  rfl

theorem sameBlocks_restoreFrom (stored : ∀ a ∈ st, IsLiteral a)
    (stored' : ∀ a ∈ store', IsLiteral a) (stores : Forall₂ (AlikeLiteral SameBlocks) st store')
    (skip : Nat) (lead s : Text) :
    SameBlocks (lead ++ restoreFrom st skip s) (lead ++ restoreFrom store' skip s) := by
  have quote : isNeutral '"' := by decide +kernel
  induction s generalizing skip lead with
  | nil => exact ⟨rfl, rfl⟩
  | cons c cs ih =>
    cases skip with
    | succ skip => exact ih skip lead
    | zero =>
      unfold restoreFrom
      cases read : placeholder? (c :: cs) with
      | none => simpa using ih 0 (lead ++ [c])
      | some hit =>
        obtain ⟨i, length⟩ := hit
        have hv (e : Text) := ih (length - 1) (lead ++ e)
        simp only [append_assoc] at hv
        dsimp only
        rcases Nat.lt_or_ge i st.length with hi | outside
        · have inside' : i < store'.length := stores.length_eq ▸ hi
          have alike : AlikeLiteral SameBlocks st[i] store'[i] := stores.get hi inside'
          rw [getElem?_eq_getElem hi, getElem?_eq_getElem inside']
          obtain ⟨s, first⟩ := exists_contents (stored _ (getElem_mem hi))
          obtain ⟨s', second⟩ := exists_contents (stored' _ (getElem_mem inside'))
          rcases alike with eq | ⟨-, -, agree⟩
          · rw [eq]
            exact hv _
          · rw [first, second, sameBlocks_quoted] at agree
            have hu : SameBlocks lead lead := ⟨rfl, rfl⟩
            rw [first, second]
            simpa using hu.append quote (agree.append quote (ih (length - 1) []))
        · rw [getElem?_eq_none outside, getElem?_eq_none (stores.length_eq ▸ outside)]
          exact hv _

theorem takeWhile_restore (stored : ∀ a ∈ st, IsLiteral a) (s : Text) :
    (restore st s).takeWhile isNameChar = s.takeWhile isNameChar := by
  induction s with
  | nil => rfl
  | cons c cs ih =>
    by_cases hn : isNameChar c
    · have ho : c ≠ '"' := by
        rintro rfl
        revert hn
        decide +kernel
      rw [restore_cons_of_ne st ho, takeWhile_cons_of_pos hn, takeWhile_cons_of_pos hn, ih]
    · obtain ⟨r, shape⟩ := head?_eq_some_iff.mp (head?_restore stored (c :: cs))
      rw [shape, takeWhile_cons_of_neg hn, takeWhile_cons_of_neg hn]

end Lexical

namespace Program

open Lexical

structure Twins (s s' : Text) : Prop where
  word : s.takeWhile isNameChar = s'.takeWhile isNameChar
  blocks : SameBlocks s s'

theorem Twins.append {c : Char} (neutral : isNeutral c) (first : Twins s s')
    (second : SameBlocks t t') : Twins (s ++ c :: t) (s' ++ c :: t') := by
  have stop : isNameChar c = false := by
    simpa using (Bool.and_eq_true_iff.mp neutral).1
  have hv (s t : Text) : (s ++ c :: t).takeWhile isNameChar = s.takeWhile isNameChar := by
    rw [takeWhile_append, takeWhile_cons_of_neg (by simp [stop]), append_nil]
    split
    · next all => exact ((List.takeWhile_prefix _).eq_of_length all).symm
    · rfl
  exact ⟨by rw [hv, hv, first.word], first.blocks.append neutral second⟩

theorem forall₂_statementsOfParts {st store' : Store} (stored : ∀ a ∈ st, IsLiteral a)
    (stored' : ∀ a ∈ store', IsLiteral a)
    (stores : Forall₂ (AlikeLiteral SameBlocks) st store') (parts : List Text) :
    Forall₂ Twins (statementsOfParts st parts) (statementsOfParts store' parts) := by
  induction parts with
  | nil => exact .nil
  | cons part r ih =>
    unfold statementsOfParts
    dsimp only
    split
    · exact ih
    · have eq : Twins (restore st (tidyStatement part)) (restore store' (tidyStatement part)) :=
        ⟨by rw [takeWhile_restore stored, takeWhile_restore stored'],
          sameBlocks_restoreFrom stored stored' stores 0 [] _⟩
      refine .cons ?_ ih
      split
      · simpa using eq
      · exact eq.append (by decide +kernel) ⟨rfl, rfl⟩

theorem forall₂_addComment {comment comment' : Text} (remark : SameBlocks comment comment')
    (slashes : comment.head? = some '/' ∧ comment'.head? = some '/') {xs list' : List Text}
    (twins : Forall₂ Twins xs list') :
    Forall₂ Twins (addComment comment xs) (addComment comment' list') := by
  induction twins with
  | nil =>
    obtain ⟨r, rfl⟩ := head?_eq_some_iff.mp slashes.1
    obtain ⟨rest', rfl⟩ := head?_eq_some_iff.mp slashes.2
    exact .cons ⟨rfl, remark⟩ .nil
  | cons first more ih =>
    cases more with
    | nil => exact .cons (first.append (by decide +kernel) remark) .nil
    | cons next more => exact .cons first ih

theorem newline_notMem_tidyStatement (free : '\n' ∉ t) : '\n' ∉ tidyStatement t := by
  have collapsed (fresh pending : Bool) : '\n' ∉ collapseFrom fresh pending t := by
    induction t generalizing fresh pending with
    | nil => exact not_mem_nil
    | cons c t ih =>
      rw [mem_cons, not_or] at free
      unfold collapseFrom
      split
      · exact ih free.2 fresh true
      · rw [mem_append, mem_cons, not_or, not_or]
        exact ⟨by split <;> simp, free.1, ih free.2 _ _⟩
  intro mem
  refine Regex.notMem_replaceAllWith _ (Regex.notMem_replaceAllWith _ (collapsed true false) ?_) ?_
    (dropWhile_subset _ (mem_of_mem_trimEnd mem))
  · decide
  · decide

def IsRow (s : Text) : Prop :=
  StartsVisibly s ∧ '\n' ∉ s

theorem IsRow.append (row : IsRow s) (free : '\n' ∉ t) : IsRow (s ++ t) := by
  obtain ⟨⟨c, more, rfl, hs⟩, one⟩ := row
  exact ⟨⟨c, more ++ t, rfl, hs⟩, fun feed => (mem_append.mp feed).elim one free⟩

theorem isRow_of_mem_statementsOfParts {st : Store}
    (stored : ∀ a ∈ st, IsLiteral a ∧ '\n' ∉ a) {xs : List Text}
    (one : ∀ part ∈ xs, '\n' ∉ part) : ∀ s ∈ statementsOfParts st xs, IsRow s := by
  induction xs with
  | nil => simp [statementsOfParts]
  | cons part r ih =>
    have others := ih (forall_mem_cons.mp one).2
    have free := newline_notMem_tidyStatement (one part mem_cons_self)
    unfold statementsOfParts
    dsimp only
    split
    · exact others
    · next filled =>
      refine forall_mem_cons.mpr ⟨IsRow.append ⟨?_, ?_⟩ (by split <;> simp), others⟩
      · obtain ⟨c, more, shape⟩ :=
          exists_cons_of_ne_nil (fun missed => filled (isEmpty_iff.mpr missed))
        have head := head?_restore (fun a mem => (stored a mem).1) (tidyStatement part)
        rw [shape, head?_cons, head?_eq_some_iff] at head
        obtain ⟨r, head⟩ := head
        refine ⟨c, r, shape ▸ head, ?_⟩
        have first : (tidyStatement part).head? = some c := by rw [shape]; rfl
        rw [tidyStatement, head?_trim] at first
        simpa using find?_some first
      · exact notMem_restoreFrom (fun a mem => (stored a mem).2) free 0

theorem isRow_addComment {comment : Text} (remark : IsRow comment) {xs : List Text}
    (rows : ∀ s ∈ xs, IsRow s) : ∀ s ∈ addComment comment xs, IsRow s := by
  induction xs with
  | nil => exact forall_mem_singleton.mpr remark
  | cons s r ih =>
    obtain ⟨first, others⟩ := forall_mem_cons.mp rows
    cases r with
    | nil =>
      refine forall_mem_singleton.mpr (first.append ?_)
      rw [mem_cons, not_or]
      exact ⟨by decide, remark.2⟩
    | cons next r => exact forall_mem_cons.mpr ⟨first, ih others⟩

theorem isRow_of_splitComment {comment : Text} (one : '\n' ∉ line)
    (given : (splitComment line).2 = some comment) : IsRow comment ∧ comment.head? = some '/' := by
  unfold splitComment at given
  split at given
  · next code comment' cut =>
    cases given
    obtain ⟨whole, more, rfl⟩ := eq_of_cutComment cut
    refine ⟨⟨⟨'/', '/' :: more, rfl, by decide⟩, fun feed => one ?_⟩, rfl⟩
    rw [whole]
    exact mem_append_right code feed
  · cases given

theorem forall₂_statementsOf (one : '\n' ∉ line) (oneLine' : '\n' ∉ line')
    (alike : AlikeLine SameBlocks line line') :
    Forall₂ Twins (statementsOf line) (statementsOf line') := by
  have stored {t : Text} : ∀ a ∈ (protect [] t).2, IsLiteral a := fun a held =>
    isLiteral_of_mem_literals (mem_literals_of_mem_protect held)
  obtain ⟨eq, stores⟩ := protectParts_alike alike.1 .nil
  have stmts (rows : List Text) :
      Forall₂ Twins (rows.flatMap fun row =>
          statementsOfParts (protect [] (splitComment line).1).2 (splitTop ';' row))
        (rows.flatMap fun row =>
          statementsOfParts (protect [] (splitComment line').1).2 (splitTop ';' row)) := by
    induction rows with
    | nil => exact .nil
    | cons row rows ih => exact rel_append (forall₂_statementsOfParts stored stored stores _) ih
  have hidden : (protect [] (splitComment line).1).1 = (protect [] (splitComment line').1).1 := eq
  unfold statementsOf
  dsimp only
  rw [hidden]
  have remark := alike.2
  cases given : (splitComment line).2 with
  | none =>
    rw [given] at remark
    rw [Option.toList_eq_nil_iff.mp (forall₂_nil_left_iff.mp remark)]
    exact stmts _
  | some comment =>
    rw [given] at remark
    obtain ⟨comment', r, agree, more, given'⟩ := forall₂_cons_left_iff.mp remark
    obtain rfl := forall₂_nil_left_iff.mp more
    have given' : (splitComment line').2 = some comment' := by simpa using given'
    rw [given']
    exact forall₂_addComment agree ⟨(isRow_of_splitComment one given).2,
      (isRow_of_splitComment oneLine' given').2⟩ (stmts _)

theorem isRow_of_mem_statementsOf (one : '\n' ∉ line) : ∀ s ∈ statementsOf line, IsRow s := by
  have stmts : ∀ s ∈ (Text.splitOn '\n' (respellAndBreak
      (protect [] (splitComment line).1).1)).flatMap fun row =>
        statementsOfParts (protect [] (splitComment line).1).2 (splitTop ';' row), IsRow s := by
    intro s mem
    obtain ⟨row, hi, among⟩ := mem_flatMap.mp mem
    refine isRow_of_mem_statementsOfParts (fun a held => ?_) (fun part member feed => ?_) s among
    · have literal := mem_literals_of_mem_protect held
      exact ⟨isLiteral_of_mem_literals literal, fun feed => one
        (splitComment_subset line (subset_of_mem_literals literal feed))⟩
    · exact sep_notMem_of_mem_splitOn row hi ((infix_of_mem_splitTopFrom member).subset feed)
  unfold statementsOf
  dsimp only
  split
  · next comment given => exact isRow_addComment (isRow_of_splitComment one given).1 stmts
  · exact stmts

def margin (line : Text) : Text × Bool :=
  (line.takeWhile isBlank, isBlankText line)

variable {width : Nat}

theorem margin_append {blanks : Text} (hb : ∀ c ∈ blanks, isBlank c)
    (hs : isBlankText (line ++ blanks) = false) : margin (line ++ blanks) = margin line := by
  have vis : isBlankText line = false := by
    rwa [isBlankText_append, show isBlankText blanks from all_eq_true.mpr hb, Bool.and_true] at hs
  have stops : (line.takeWhile isBlank).length ≠ line.length := by
    intro all
    rw [← (List.takeWhile_prefix isBlank).eq_of_length all] at vis
    simp [isBlankText] at vis
  rw [margin, margin, takeWhile_append, if_neg stops, vis, hs]

/-- The margins of lines can be read off the text that is written with them, though a carriage
return at the end of a line is lost. -/
theorem map_margin_lines {xs : List Text}
    (rows : ∀ line ∈ xs, line = [] ∨ isBlankText line = false ∧ '\n' ∉ line) :
    (lines (ofLines xs)).map margin = xs.map margin := by
  induction xs with
  | nil => rfl
  | cons line r ih =>
    obtain ⟨first, others⟩ := forall_mem_cons.mp rows
    have one : '\n' ∉ line := by
      rcases first with rfl | ⟨-, one⟩
      · exact not_mem_nil
      · exact one
    obtain ⟨read, blanks, rfl, hb, again⟩ := lines_append_feed one (ofLines r)
    rw [ofLines_cons, again, map_cons, ih others]
    congr 1
    rcases first with missed | ⟨hs, -⟩
    · obtain ⟨rfl, rfl⟩ := append_eq_nil_iff.mp missed
      rfl
    · exact (margin_append hb hs).symm

theorem margin_indent_append (vis : StartsVisibly s) (level : Nat) :
    margin (Layout.indent width level ++ s) = (Layout.indent width level, false) := by
  obtain ⟨c, more, rfl, hs⟩ := vis
  rw [margin, takeWhile_append_of_pos fun c => isBlank_of_mem_indent]
  simp [isBlankText, hs]

theorem indentLevel_twins (same : Twins s s') (vis : StartsVisibly s)
    (visible' : StartsVisibly s') (depth : Nat) :
    (Nesting.ofLine s).indentLevel depth = (Nesting.ofLine s').indentLevel depth := by
  rw [Nesting.indentLevel_eq vis.head, Nesting.indentLevel_eq visible'.head, isOutdented,
    isOutdented, same.word]

theorem layStatements_twins {xs list' : List Text} (twins : Forall₂ Twins xs list')
    (rows : ∀ s ∈ xs, IsRow s) (rows' : ∀ s ∈ list', IsRow s) (depth : Nat) :
    (layStatements width depth xs).1.map margin = (layStatements width depth list').1.map margin ∧
      (layStatements width depth xs).2 = (layStatements width depth list').2 := by
  induction twins generalizing depth with
  | nil => exact ⟨rfl, rfl⟩
  | @cons s s' rest rest' same _ ih =>
    obtain ⟨first, others⟩ := forall_mem_cons.mp rows
    obtain ⟨first', others'⟩ := forall_mem_cons.mp rows'
    have hsuf : (Nesting.ofLine s).depthAfter depth = (Nesting.ofLine s').depthAfter depth := by
      rw [Nesting.depthAfter, Nesting.depthAfter, Nesting.opens_ofLine, Nesting.opens_ofLine,
        Nesting.closes_ofLine, Nesting.closes_ofLine, same.blocks.1, same.blocks.2]
    have level := indentLevel_twins same first.1 first'.1 depth
    obtain ⟨margins, fin⟩ := ih others others' ((Nesting.ofLine s').depthAfter depth)
    unfold layStatements
    dsimp only
    rw [hsuf, level]
    refine ⟨?_, fin⟩
    rw [cons_append, cons_append, map_cons, map_cons, map_append, map_append, margins,
      margin_indent_append first.1, margin_indent_append first'.1]

theorem map_margin_lay {front : List Text} {last : Text} (rows : ∀ s ∈ front, IsRow s)
    (row : IsRow last) :
    (lines (lay width (front ++ [last]))).map margin =
      (layStatements width 0 front).1.map margin ++ [(Layout.indent width
        ((Nesting.ofLine last).indentLevel (layStatements width 0 front).2), false)] := by
  have isRow (level : Nat) {s : Text} (vis : StartsVisibly s) (one : '\n' ∉ s) :
      isBlankText (Layout.indent width level ++ s) = false ∧
        '\n' ∉ Layout.indent width level ++ s := by
    refine ⟨congrArg Prod.snd (margin_indent_append vis level), fun feed => ?_⟩
    rcases mem_append.mp feed with lead | hi
    · exact absurd (eq_of_mem_replicate lead) (by decide)
    · exact one hi
  rw [lay_concat front row.1, map_margin_lines, map_append, map_singleton,
    margin_indent_append row.1.trimEnd]
  intro line mem
  rcases mem_append.mp mem with mem | mem
  · rcases mem_layStatements mem with rfl | ⟨level, s, member, rfl⟩
    · exact .inl rfl
    · exact .inr (isRow level (rows s member).1 (rows s member).2)
  · rw [mem_singleton.mp mem]
    exact .inr (isRow _ row.1.trimEnd fun feed => row.2 (mem_of_mem_trimEnd feed))

theorem map_margin_lay_twins {xs list' : List Text} (twins : Forall₂ Twins xs list')
    (rows : ∀ s ∈ xs, IsRow s) (rows' : ∀ s ∈ list', IsRow s) :
    (lines (lay width xs)).map margin = (lines (lay width list')).map margin := by
  rcases eq_nil_or_concat xs with rfl | ⟨front, last, rfl⟩
  · cases twins
    rfl
  rcases eq_nil_or_concat list' with rfl | ⟨front', last', rfl⟩
  · simp at twins
  simp only [concat_eq_append, forall_mem_append, forall_mem_singleton] at rows rows' twins ⊢
  obtain ⟨last_twins, front_twins⟩ : Twins last last' ∧ Forall₂ Twins front front' := by
    rw [← forall₂_reverse_iff, reverse_append, reverse_append] at twins
    obtain ⟨first, others⟩ := forall₂_cons.mp twins
    exact ⟨first, forall₂_reverse_iff.mp others⟩
  obtain ⟨margins, depth⟩ := @layStatements_twins width _ _ front_twins rows.1 rows'.1 0
  rw [map_margin_lay rows.1 rows.2, map_margin_lay rows'.1 rows'.2, margins, depth,
    indentLevel_twins last_twins rows.2.1 rows'.2.1]

/-- Programs without number signs that differ in the contents of literals and in comments have, when
they are laid out, as many lines with the same margins, where the literals and comments open and
close as many blocks and no literal reads as a placeholder. -/
theorem margins_of_alike_programs (width : Nat) (t t' : Text) (unmarked : '#' ∉ t)
    (unmarked' : '#' ∉ t') (alike : Forall₂ (AlikeLine SameBlocks) (laidLines t) (laidLines t')) :
    (lines (reformat width t)).map margin = (lines (reformat width t')).map margin := by
  have oneLine {t line : Text} (listed : line ∈ laidLines t) : '\n' ∉ line :=
    newline_notMem_of_mem_lines listed
  have rows (t : Text) : ∀ s ∈ (laidLines t).flatMap statementsOf, IsRow s :=
    forall_mem_flatMap.mpr fun line listed => isRow_of_mem_statementsOf (oneLine listed)
  rw [reformat_eq_lay width unmarked, reformat_eq_lay width unmarked']
  refine map_margin_lay_twins ?_ (rows t) (rows t')
  have free : ∀ line ∈ laidLines t, '\n' ∉ line := fun _ => oneLine
  have free' : ∀ line ∈ laidLines t', '\n' ∉ line := fun _ => oneLine
  generalize laidLines t = lines, laidLines t' = lines' at alike free free' ⊢
  induction alike with
  | nil => exact .nil
  | cons first _ ih =>
    obtain ⟨here, others⟩ := forall_mem_cons.mp free
    obtain ⟨here', others'⟩ := forall_mem_cons.mp free'
    exact rel_append (forall₂_statementsOf here here' first) (ih others others')

theorem margins_of_other_literals :
    let t := "if a then\n  s := \"begin\"; // x\nend;".toList
    let t' := "if a then\n  s := \"; ELSE\"; // if\nend;".toList
    '#' ∉ t ∧ '#' ∉ t' ∧ Forall₂ (AlikeLine SameBlocks) (laidLines t) (laidLines t') ∧
      (lines (reformat 2 t)).map margin = (lines (reformat 2 t')).map margin := by
  intro t t'
  have alike : Forall₂ (AlikeLine SameBlocks) (laidLines t) (laidLines t') := by decide +kernel
  exact ⟨by decide, by decide, alike,
    margins_of_alike_programs 2 t t' (by decide) (by decide) alike⟩

/-- A literal that opens a block moves the line behind it, though the programs differ in nothing
else. -/
theorem literal_moves_margins :
    let t := "x := \"\";\ny := 1;\n".toList
    let t' := "x := \"BEGIN\";\ny := 1;\n".toList
    '#' ∉ t ∧ '#' ∉ t' ∧ Forall₂ (AlikeLine fun _ _ => True) (laidLines t) (laidLines t') ∧
      reformat 2 t' = "x := \"BEGIN\";\n  y := 1;\n".toList ∧
      (lines (reformat 2 t)).map margin ≠ (lines (reformat 2 t')).map margin := by
  decide +kernel

end Program

end PrimePlus
