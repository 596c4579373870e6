import PrimePlus.Proofs.StatementLexemes

/-!
The statements of a line as lists of lexemes (`codeStatements_write`).
-/

namespace PrimePlus.Program

open List Lexical

open Unicode (isBlank)
open Lexeme

variable {depth : Int} {behindWord : Bool}

variable {α β : Type} {hs : α → Text} {list : List (Lexeme α)} {t tail : Text}

/-- The statements of parts that stand between semicolons. All but the last part end with one; empty
parts are dropped. -/
def statementsOfLists : List (List (Lexeme α)) → List (List (Lexeme α))
  | [] => []
  | part :: rest =>
    if part.isEmpty then statementsOfLists rest
    else (clearGap (settle false false false part) ++
      if rest.isEmpty then [] else [⟨[], .sign ';'⟩]) :: statementsOfLists rest

def statements (list : List (Lexeme α)) : List (List (Lexeme α)) :=
  (cutRows (joinSigns (respell spelling list))).flatMap fun row =>
    statementsOfLists (cutParts 0 row)

section Natural

variable (f : α → β) (list : List (Lexeme α))

@[simp] theorem isSign_map (c : Char) (atom : Atom α) : (atom.map f).isSign c = atom.isSign c := by
  cases atom <;> rfl

@[simp] theorem names_map (kind : Text → Bool) (atom : Atom α) :
    (atom.map f).names kind = atom.names kind := by
  cases atom <;> rfl

@[simp] theorem startsSign_map (c : Char) :
    startsSign c (list.map (map f)) = startsSign c list := by
  cases list with
  | nil => rfl
  | cons lex r => exact congrArg (lex.gap.isEmpty && ·) (isSign_map f c lex.atom)

theorem respell_map (spell : Text → Text) :
    respell spell (list.map (Lexeme.map f)) = (respell spell list).map (Lexeme.map f) := by
  unfold respell
  rw [map_map, map_map]
  refine map_congr_left fun lex _ => ?_
  cases lex with
  | mk gap atom => cases atom <;> rfl

theorem mergeSigns_map (x y z : Char) :
    mergeSigns x y z (list.map (Lexeme.map f)) = (mergeSigns x y z list).map (Lexeme.map f) := by
  induction list with
  | nil => rfl
  | cons lex r ih =>
    rw [map_cons, mergeSigns, mergeSigns, ih, startsSign_map, Lexeme.map, isSign_map]
    split
    · rw [map_cons, map_tail]
      rfl
    · rfl

theorem joinSigns_map :
    joinSigns (list.map (Lexeme.map f)) = (joinSigns list).map (Lexeme.map f) := by
  unfold joinSigns
  induction digraphs generalizing list with
  | nil => rfl
  | cons sign tbl ih => rw [foldl_cons, mergeSigns_map, ih, foldl_cons]

theorem modifyHead_map (lists : List (List (Lexeme α))) (lex : Lexeme α) :
    (lists.map (List.map (Lexeme.map f))).modifyHead (lex.map f :: ·) =
      (lists.modifyHead (lex :: ·)).map (List.map (Lexeme.map f)) := by
  cases lists <;> rfl

theorem cutRows_map :
    cutRows (list.map (Lexeme.map f)) = (cutRows list).map (List.map (Lexeme.map f)) := by
  induction list with
  | nil => rfl
  | cons lex r ih =>
    rw [map_cons, cutRows, cutRows, ih]
    have rows : (if (lex.map f).atom.names endsRow then
        [] :: (cutRows r).map (List.map (Lexeme.map f))
          else (cutRows r).map (List.map (Lexeme.map f))) =
        (if lex.atom.names endsRow then [] :: cutRows r else cutRows r).map
          (List.map (Lexeme.map f)) := by
      rw [Lexeme.map, names_map]
      split <;> rfl
    rw [rows, Lexeme.map, names_map]
    split
    · exact congrArg ([] :: ·) (modifyHead_map f _ ⟨[], lex.atom⟩)
    · exact modifyHead_map f _ lex

theorem cutParts_map (depth : Int) :
    cutParts depth (list.map (Lexeme.map f)) =
      (cutParts depth list).map (List.map (Lexeme.map f)) := by
  induction list generalizing depth with
  | nil => rfl
  | cons lex r ih =>
    have step : bracketStep (lex.map f).atom = bracketStep lex.atom := by
      cases lex with
      | mk gap atom => cases atom <;> rfl
    rw [map_cons, cutParts, cutParts, ih, ih, step, Lexeme.map, isSign_map]
    split
    · rfl
    · exact modifyHead_map f _ lex

theorem startsAssignment_map :
    startsAssignment (list.map (Lexeme.map f)) = startsAssignment list := by
  cases list with
  | nil => rfl
  | cons lex r =>
    rw [map_cons, startsAssignment, startsAssignment, startsSign_map, Lexeme.map, isSign_map]

theorem settle_map (comma a v : Bool) :
    settle comma a v (list.map (Lexeme.map f)) = (settle comma a v list).map (Lexeme.map f) := by
  induction list generalizing comma a v with
  | nil => rfl
  | cons lex r ih =>
    rw [map_cons, settle, settle, ← map_cons, startsAssignment_map, ih]
    simp only [Lexeme.map, isSign_map, map_cons]

theorem clearGap_map :
    clearGap (list.map (Lexeme.map f)) = (clearGap list).map (Lexeme.map f) := by
  cases list <;> rfl

theorem statementsOfLists_map (lists : List (List (Lexeme α))) :
    statementsOfLists (lists.map (List.map (Lexeme.map f))) =
      (statementsOfLists lists).map (List.map (Lexeme.map f)) := by
  induction lists with
  | nil => rfl
  | cons part r ih =>
    rw [map_cons, statementsOfLists, statementsOfLists, ih, settle_map, clearGap_map,
      isEmpty_map, isEmpty_map]
    split
    · rfl
    · rw [map_cons, map_append]
      split <;> rfl

theorem statements_map :
    statements (list.map (Lexeme.map f)) = (statements list).map (List.map (Lexeme.map f)) := by
  unfold statements
  rw [respell_map, joinSigns_map, cutRows_map, flatMap_map, map_flatMap]
  simp only [cutParts_map, statementsOfLists_map]

end Natural

section Pieces

/-- Words that start a row come first in it and words that end a row come last. The flag says that a
row may start. -/
def OneRow : Bool → List (Atom α) → Prop
  | _, [] => True
  | first, atom :: rest =>
    (atom.names startsRow = true → first = true) ∧ (atom.names endsRow = true → rest = []) ∧
      OneRow false rest

theorem OneRow.weaken {atoms : List (Atom α)} (row : OneRow false atoms) : OneRow true atoms := by
  cases atoms with
  | nil => trivial
  | cons atom r => exact ⟨fun _ => rfl, row.2⟩

def IsRowOf (piece row : List (Lexeme α)) : Prop :=
  (row = piece ∨ row = clearGap piece) ∧ OneRow true (row.map atom)

theorem exists_pieces (list : List (Lexeme α)) :
    ∃ a others pieces, cutRows list = a :: others ∧ list = a ++ pieces.flatten ∧
      OneRow false (a.map atom) ∧ Forall₂ IsRowOf pieces others := by
  induction list with
  | nil => exact ⟨[], [], [], rfl, rfl, trivial, .nil⟩
  | cons lex r ih =>
    obtain ⟨a, others, pieces, rows, whole, row, further⟩ := ih
    -- what stands behind the lexeme, after the row that it may end
    obtain ⟨a, others, pieces, rows, whole, row, further, ended⟩ : ∃ a others pieces,
        (if lex.atom.names endsRow then [] :: cutRows r else cutRows r) = a :: others ∧
          r = a ++ pieces.flatten ∧ OneRow false (a.map atom) ∧
          Forall₂ IsRowOf pieces others ∧ (lex.atom.names endsRow → a = []) := by
      split
      · exact ⟨[], a :: others, a :: pieces, by rw [rows], by simpa using whole, trivial,
          .cons ⟨.inl rfl, row.weaken⟩ further, fun _ => rfl⟩
      · next goesOn =>
        exact ⟨a, others, pieces, rows, whole, row, further, fun ends => absurd ends goesOn⟩
    have ended' : lex.atom.names endsRow → a.map atom = [] :=
      fun ends => by rw [ended ends, map_nil]
    rw [cutRows, rows]
    split
    · exact ⟨[], (⟨[], lex.atom⟩ :: a) :: others, (lex :: a) :: pieces, rfl,
        by simpa using whole, trivial, .cons ⟨.inr rfl, fun _ => rfl, ended', row⟩ further⟩
    · next goesOn =>
      exact ⟨lex :: a, others, pieces, rfl, by simpa using whole,
        ⟨fun starts => absurd starts goesOn, ended', row⟩, further⟩

theorem exists_rows (list : List (Lexeme α)) :
    ∃ pieces, list = pieces.flatten ∧ Forall₂ IsRowOf pieces (cutRows list) := by
  obtain ⟨a, others, pieces, rows, whole, row, further⟩ := exists_pieces list
  refine ⟨a :: pieces, by simpa using whole, ?_⟩
  rw [rows]
  exact .cons ⟨.inl rfl, row.weaken⟩ further

def Whole : Int → List (Atom α) → Prop
  | _, [] => True
  | depth, atom :: rest =>
    (atom.isSign ';' && depth = 0) = false ∧ Whole (depth + bracketStep atom) rest

def depthAfter : Int → List (Atom α) → Int
  | depth, [] => depth
  | depth, atom :: rest => depthAfter (depth + bracketStep atom) rest

inductive Parted : Int → List (Lexeme α) → List (List (Lexeme α)) → Prop
  | last {depth : Int} {part : List (Lexeme α)} (whole : Whole depth (part.map atom)) :
    Parted depth part [part]
  | cons {depth : Int} {part behind : List (Lexeme α)} {rest : List (List (Lexeme α))} (gap : Text)
    (whole : Whole depth (part.map atom))
    (level : depthAfter depth (part.map atom) = 0) (others : Parted 0 behind rest) :
    Parted depth (part ++ ⟨gap, .sign ';'⟩ :: behind) (part :: rest)

theorem parted_cutParts (depth : Int) (list : List (Lexeme α)) :
    Parted depth list (cutParts depth list) := by
  induction list generalizing depth with
  | nil => exact .last trivial
  | cons lex r ih =>
    rw [cutParts]
    split
    · next cut =>
      obtain ⟨sign, level⟩ := Bool.and_eq_true_iff.mp cut
      obtain ⟨gap, atom⟩ := lex
      cases isSign_eq_true sign
      cases of_decide_eq_true level
      show Parted 0 ([] ++ ⟨gap, .sign ';'⟩ :: r) _
      exact .cons gap trivial rfl (ih 0)
    · next goesOn =>
      have here := Bool.eq_false_iff.mpr goesOn
      have further := ih (depth + bracketStep lex.atom)
      cases parts : cutParts (depth + bracketStep lex.atom) r with
      | nil =>
        rw [parts] at further
        cases further
      | cons part others =>
        rw [parts] at further
        cases further with
        | last whole => exact .last ⟨here, whole⟩
        | @cons _ _ v _ gap whole level others =>
          show Parted depth ((lex :: part) ++ ⟨gap, .sign ';'⟩ :: v) _
          exact .cons gap ⟨here, whole⟩ level others

end Pieces

section Marks

theorem marks_eq_of_atoms {left right : List (Lexeme α)} (eq : left.map atom = right.map atom) :
    marks left = marks right := by
  have atoms (list : List (Lexeme α)) : marks list = (list.map atom).filterMap Atom.mark? := by
    rw [filterMap_map]
    rfl
  rw [atoms, atoms, eq]

theorem atoms_clearGap (list : List (Lexeme α)) : (clearGap list).map atom = list.map atom := by
  cases list <;> rfl

theorem atoms_settled (list : List (Lexeme α)) :
    (clearGap (settle false false false list)).map atom = list.map atom := by
  rw [atoms_clearGap, (regapped_settle false false false list).atoms_eq]

theorem marks_respell (spell : Text → Text) (list : List (Lexeme α)) :
    marks (respell spell list) = marks list := by
  unfold marks respell
  rw [filterMap_map]
  refine filterMap_congr fun lex _ => ?_
  cases lex with
  | mk gap atom => cases atom <;> rfl

theorem marks_flatten (lists : List (List (Lexeme α))) :
    marks lists.flatten = lists.flatMap marks := by
  induction lists with
  | nil => rfl
  | cons list lists ih => rw [flatten_cons, marks_append, ih, flatMap_cons]

variable {pieces rows parts : List (List (Lexeme α))}

theorem marks_of_rows
    (eq : Forall₂ IsRowOf pieces rows) : rows.flatMap marks = pieces.flatMap marks := by
  induction eq with
  | nil => rfl
  | @cons piece row pieces rows first others ih =>
    rw [flatMap_cons, flatMap_cons, ih]
    rcases first.1 with rfl | rfl
    · rfl
    · rw [marks_eq_of_atoms (atoms_clearGap piece)]

theorem marks_cutRows (list : List (Lexeme α)) : (cutRows list).flatMap marks = marks list := by
  obtain ⟨pieces, whole, rows⟩ := exists_rows list
  rw [marks_of_rows rows, ← marks_flatten, ← whole]

theorem marks_of_parted (parted : Parted depth list parts) : parts.flatMap marks = marks list := by
  induction parted with
  | last whole => simp
  | cons gap whole level others ih =>
    rw [flatMap_cons, ih, marks_append]
    rfl

theorem marks_statementsOfLists (parts : List (List (Lexeme α))) :
    (statementsOfLists parts).flatMap marks = parts.flatMap marks := by
  induction parts with
  | nil => rfl
  | cons part r ih =>
    rw [statementsOfLists, flatMap_cons]
    split
    · next empty => rw [ih, isEmpty_iff.mp empty, marks_nil, nil_append]
    · rw [flatMap_cons, ih, marks_append, marks_eq_of_atoms (atoms_settled part)]
      split <;> simp [marks, Atom.mark?]

theorem marks_statements (list : List (Lexeme α)) :
    (statements list).flatMap marks = marks list := by
  have parts (row : List (Lexeme α)) :
      (statementsOfLists (cutParts 0 row)).flatMap marks = marks row := by
    rw [marks_statementsOfLists, marks_of_parted (parted_cutParts 0 row)]
  rw [statements, flatMap_assoc]
  simp only [parts]
  rw [marks_cutRows, marks_joinSigns, marks_respell]

end Marks

section Lawful

variable {part row : List (Lexeme α)} {pieces rows parts : List (List (Lexeme α))}

theorem lawful_of_isInfix (hl : AreLawful behindWord list) (hi : part <:+: list) :
    AreLawful false part := by
  obtain ⟨pre, v, rfl⟩ := hi
  rw [append_assoc] at hl
  exact hl.of_append.2.of_append.1

theorem exists_piece (eq : Forall₂ IsRowOf pieces rows) (mem : row ∈ rows) :
    ∃ piece ∈ pieces, IsRowOf piece row := by
  induction eq with
  | nil => cases mem
  | @cons piece _ _ _ first _ ih =>
    rcases mem_cons.mp mem with rfl | later
    · exact ⟨piece, mem_cons_self, first⟩
    · obtain ⟨piece, member, isRow⟩ := ih later
      exact ⟨piece, mem_cons_of_mem _ member, isRow⟩

theorem exists_infix_of_mem_cutRows (mem : row ∈ cutRows list) :
    ∃ piece, piece <:+: list ∧ IsRowOf piece row := by
  obtain ⟨pieces, whole, rows⟩ := exists_rows list
  obtain ⟨piece, member, isRow⟩ := exists_piece rows mem
  refine ⟨piece, ?_, isRow⟩
  rw [whole]
  exact infix_of_mem_flatten member

theorem Parted.infix_of_mem (parted : Parted depth list parts) (mem : part ∈ parts) :
    part <:+: list := by
  induction parted with
  | last whole => exact mem_singleton.mp mem ▸ infix_refl _
  | cons gap whole level others ih =>
    rcases mem_cons.mp mem with rfl | later
    · exact (prefix_append ..).isInfix
    · refine (ih later).trans ?_
      exact ((suffix_cons ..).trans (suffix_append ..)).isInfix

theorem lawful_of_mem_cutRows (hl : AreLawful false list) :
    ∀ row ∈ cutRows list, AreLawful false row := by
  intro row mem
  obtain ⟨piece, hi, eq | eq, -⟩ := exists_infix_of_mem_cutRows mem
  · exact eq ▸ lawful_of_isInfix hl hi
  · exact eq ▸ lawful_clearGap (lawful_of_isInfix hl hi)

theorem lawful_of_mem_cutParts (hl : AreLawful false list) (depth : Int) :
    ∀ part ∈ cutParts depth list, AreLawful false part :=
  fun _ mem => lawful_of_isInfix hl ((parted_cutParts depth list).infix_of_mem mem)

end Lawful

section Texts

def lookup (store : Store) (index : Nat) : Text :=
  (store[index]?).getD (placeholder index)

theorem write_eq_nil (hidden : IsHidden hs) (hl : AreLawful behindWord list)
    (empty : write hs list = []) : list = [] := by
  cases list with
  | nil => rfl
  | cons lex r =>
    rw [write_cons, append_eq_nil_iff, append_eq_nil_iff] at empty
    exact absurd empty.2.1 (shown_render hidden hl.2.1).1

theorem statementsOfParts_eq (st : Store) {parts : List (List (Lexeme Nat))} {texts : List Text}
    (writes : Forall₂ (Writes placeholder) parts texts)
    (hl : ∀ part ∈ parts, AreLawful false part) (one : ∀ text ∈ texts, '\n' ∉ text) :
    statementsOfParts st texts = (statementsOfLists parts).map (write (lookup st)) := by
  induction writes with
  | nil => rfl
  | @cons part text parts texts first others ih =>
    rw [forall_mem_cons] at hl one
    have tidied := tidyStatement_eq isHidden_placeholder hl.1 first one.1
    have settled : AreLawful false (clearGap (settle false false false part)) :=
      lawful_clearGap ((regapped_settle false false false part).lawful hl.1)
    have eq : texts.isEmpty = parts.isEmpty := by
      cases others <;> rfl
    rw [statementsOfParts, statementsOfLists, ih hl.2 one.2, tidied]
    cases part with
    | nil => rfl
    | cons lex r =>
      have filled : (write placeholder
          (clearGap (settle false false false (lex :: r)))).isEmpty = false := by
        rw [Bool.eq_false_iff]
        intro empty
        cases write_eq_nil isHidden_placeholder settled (isEmpty_iff.mp empty)
      have restored : restore st (write placeholder
          (clearGap (settle false false false (lex :: r)))) =
            write (lookup st) (clearGap (settle false false false (lex :: r))) :=
        restore_write settled st
      rw [filled, restored, eq]
      cases parts.isEmpty <;> simp [Atom.render]

theorem sep_notMem_of_mem_splitOn {sep : Char} {t : Text} :
    ∀ part ∈ Text.splitOn sep t, sep ∉ part := by
  induction t with
  | nil => exact forall_mem_singleton.mpr not_mem_nil
  | cons d t ih =>
    by_cases eq : d = sep
    · rw [Text.splitOn, if_pos eq]
      exact forall_mem_cons.mpr ⟨not_mem_nil, ih⟩
    · obtain ⟨first, r, split⟩ := exists_cons_of_ne_nil (Text.splitOn_ne_nil sep t)
      rw [split, forall_mem_cons] at ih
      rw [Text.splitOn_cons_of_ne eq split]
      exact forall_mem_cons.mpr ⟨not_mem_cons_of_ne_of_not_mem (Ne.symm eq) ih.1, ih.2⟩

theorem rows_eq (st : Store) {rows : List (List (Lexeme Nat))} {texts : List Text}
    (writes : Forall₂ (Writes placeholder) rows texts)
    (hl : ∀ row ∈ rows, AreLawful false row) (one : ∀ text ∈ texts, '\n' ∉ text) :
    (texts.flatMap fun row => statementsOfParts st (splitTop ';' row)) =
      (rows.flatMap fun row => statementsOfLists (cutParts 0 row)).map (write (lookup st)) := by
  induction writes with
  | nil => rfl
  | @cons row text rows texts first others ih =>
    rw [forall_mem_cons] at hl one
    obtain ⟨tail, hb, rfl⟩ := first
    have parts := statementsOfParts_eq st (writes_parts isHidden_placeholder hl.1 hb 0)
      (lawful_of_mem_cutParts hl.1 0)
      fun part mem feed => one.1 ((infix_of_mem_splitTopFrom mem).subset feed)
    rw [flatMap_cons, flatMap_cons, map_append, ih hl.2 one.2, splitTop, parts]

def Unbroken (list : List (Lexeme α)) : Prop :=
  ∀ lexeme ∈ list, '\n' ∉ lexeme.gap

theorem newline_notMem_write (hidden : IsHidden hs) (hl : AreLawful behindWord list)
    (unbroken : Unbroken list) : '\n' ∉ write hs list := by
  induction list generalizing behindWord with
  | nil => simp
  | cons lex r ih =>
    obtain ⟨-, first, -, hl⟩ := hl
    unfold Unbroken at unbroken
    rw [forall_mem_cons] at unbroken
    rw [write_cons, mem_append, mem_append, not_or, not_or]
    exact ⟨unbroken.1, newline_notMem_render hidden first, ih hl unbroken.2⟩

theorem unbroken_of_notMem (one : '\n' ∉ write hs list) : Unbroken list := by
  intro lex mem feed
  apply one
  exact mem_flatMap.mpr ⟨lex, mem, mem_append_left _ feed⟩

theorem Unbroken.respell (unbroken : Unbroken list) (spell : Text → Text) :
    Unbroken (respell spell list) := by
  intro lex mem
  obtain ⟨old, member, rfl⟩ := mem_map.mp mem
  exact unbroken old member

theorem Unbroken.merged {x y z : Char} {new : List (Lexeme α)} (unbroken : Unbroken list)
    (merged : Merged x y z list new) : Unbroken new :=
  merged.forall_mem unbroken fun _ => id

theorem Unbroken.of_map {f : α → β} (unbroken : Unbroken (list.map (map f))) : Unbroken list :=
  fun lex mem => unbroken (lex.map f) (mem_map_of_mem mem)

theorem respellAndBreak_write (hidden : IsHidden hs) (hl : AreLawful false list)
    (hb : ∀ c ∈ tail, isBlank c) :
    respellAndBreak (write hs list ++ tail) =
      render broken hs (joinSigns (respell spelling list)) ++ tail := by
  have respelled : AreLawful false (respell spelling list) := hl.respell fun _ => spelling_lawful
  show breakBeforePattern.replaceAll (breakAfterPattern.replaceAll (comparisonSigns.foldl _
    (smallEndPattern.replaceAllWith (Construct.capitalize (write hs list ++ tail)) "END")) _) _ = _
  rw [spelled_write hidden hl hb, joined_write hidden respelled hb]
  exact broken_write hidden (lawful_joinSigns respelled) hb

def codeStatements (code : Text) : List Text :=
  (Text.splitOn '\n' (respellAndBreak (protect [] code).1)).flatMap fun row =>
    statementsOfParts (protect [] code).2 (splitTop ';' row)

theorem codeStatements_write {list : List (Lexeme Text)} (hl : AreLawful false list)
    (quoted : AreQuoted (marks list)) (hb : ∀ c ∈ tail, isBlank c)
    (one : '\n' ∉ write id list ++ tail) :
    codeStatements (write id list ++ tail) = (statements list).map (write id) := by
  have protected' := protect_write hl quoted hb []
  rw [codeStatements, protected']
  have eq : (number 0 list).map (Lexeme.map (lookup (heldOf list))) = list :=
    map_number fun i a hit => by simp [lookup, hit]
  rw [mem_append, not_or] at one
  have unbroken : Unbroken (number 0 list) := by
    refine Unbroken.of_map (f := lookup (heldOf list)) ?_
    rw [eq]
    exact unbroken_of_notMem one.1
  have lawful' := hl.number 0
  generalize heldOf list = st, number 0 list = numbered at *
  subst eq
  -- the passes over the text are passes over the numbered lexemes
  have hidden := isHidden_placeholder
  have respelled : AreLawful false (respell spelling numbered) :=
    lawful'.respell fun _ => spelling_lawful
  have joined := lawful_joinSigns respelled
  have unbroken : Unbroken (joinSigns (respell spelling numbered)) :=
    joinSigns_induction Unbroken (unbroken.respell spelling) fun _ _ _ _ merged held =>
      held.merged merged
  have one : '\n' ∉ write placeholder (joinSigns (respell spelling numbered)) ++ tail := by
    rw [mem_append, not_or]
    exact ⟨newline_notMem_write hidden joined unbroken, one.2⟩
  rw [respellAndBreak_write hidden lawful' hb,
    rows_eq _ (writes_rows hidden joined hb one) (lawful_of_mem_cutRows joined)
      sep_notMem_of_mem_splitOn, statements_map, map_map]
  refine map_congr_left fun stmt _ => ?_
  exact (write_map _ id).symm

end Texts

end PrimePlus.Program
