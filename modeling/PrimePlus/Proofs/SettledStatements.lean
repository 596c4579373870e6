import PrimePlus.Proofs.LineStatements

/-!
Statements that the layout leaves as they are.
-/

namespace PrimePlus.Program

open List Lexical
open Lexeme (atom)

variable {α : Type} {list : List (Lexeme α)}

section Fixpoints

theorem startsSign_settle (a : Bool) (list : List (Lexeme α)) :
    startsSign '=' (settle false a false list) = startsSign '=' list := by
  cases list with
  | nil => rfl
  | cons lex r =>
    cases sign : lex.atom.isSign '=' with
    | false => simp [startsSign, settle, sign]
    | true =>
      have equals := isSign_eq_true sign
      have opens : startsAssignment (lex :: r) = false := by
        simp [startsAssignment, equals, Atom.isSign]
      have comma : lex.atom.isSign ',' = false := by simp [equals, Atom.isSign]
      cases gap : lex.gap <;> simp [startsSign, settle, opens, comma, gap]

theorem settle_settle (comma a v : Bool)
    (inner : a → startsSign '=' list ∧ comma = false ∧ v = false) :
    settle comma a v (settle comma a v list) = settle comma a v list := by
  induction list generalizing comma a v with
  | nil => rfl
  | cons lex r ih =>
    -- the first character of an assignment sign is not its second one
    have outside (first : lex.atom.isSign ':') : a = false := by
      rw [Bool.eq_false_iff]
      intro isInside
      obtain ⟨starts, -⟩ := inner isInside
      rw [startsSign, isSign_eq_true first] at starts
      simp [Atom.isSign] at starts
    have noComma (first : lex.atom.isSign ':') : lex.atom.isSign ',' = false := by
      simp [isSign_eq_true first, Atom.isSign]
    have further := ih (lex.atom.isSign ',') (startsAssignment (lex :: r)) a fun opens => by
      obtain ⟨first, starts⟩ := Bool.and_eq_true_iff.mp opens
      exact ⟨starts, noComma first, outside first⟩
    have opens (gap : Text) : startsAssignment (⟨gap, lex.atom⟩ ::
        settle (lex.atom.isSign ',') (startsAssignment (lex :: r)) a r) =
          startsAssignment (lex :: r) := by
      rw [startsAssignment]
      cases first : lex.atom.isSign ':' with
      | false => simp [startsAssignment, first]
      | true => rw [noComma first, outside first, startsSign_settle, startsAssignment, first]
    rw [settle, settle, opens, further]
    cases startsAssignment (lex :: r) <;> cases v <;> cases comma <;>
      cases lex.atom.isSign ',' <;> cases lex.gap <;> rfl

theorem settle_append {right : List (Lexeme α)} (ha : startsSign '=' right = false)
    (comma inside behind : Bool) (left : List (Lexeme α)) :
    ∃ rest, settle comma inside behind (left ++ right) =
      settle comma inside behind left ++ rest := by
  induction left generalizing comma inside behind with
  | nil => exact ⟨_, rfl⟩
  | cons lex left ih =>
    have opens : startsAssignment (lex :: (left ++ right)) = startsAssignment (lex :: left) := by
      rw [startsAssignment]
      cases left with
      | nil => rw [nil_append, ha]; rfl
      | cons next left => rfl
    rw [cons_append, settle, settle, opens]
    obtain ⟨rest, further⟩ := ih (lex.atom.isSign ',') (startsAssignment (lex :: left)) inside
    exact ⟨rest, by rw [further, cons_append]⟩

/-- The rows behind a lexeme, after the row that it may end. -/
theorem rows_behind {lex : Lexeme α} {r : List (Lexeme α)} {n : Nat}
    (ends : lex.atom.names endsRow → r.map atom = []) (rows : cutRows r = r :: replicate n []) :
    ∃ n, (if lex.atom.names endsRow then [] :: cutRows r else cutRows r) = r :: replicate n [] := by
  rw [rows]
  split
  · next last =>
    cases map_eq_nil_iff.mp (ends last)
    exact ⟨n + 1, rfl⟩
  · exact ⟨n, rfl⟩

theorem cutRows_of_oneRow_false (row : OneRow false (list.map atom)) :
    ∃ n, cutRows list = list :: replicate n [] := by
  induction list with
  | nil => exact ⟨0, rfl⟩
  | cons lex r ih =>
    obtain ⟨starts, ends, row⟩ := row
    obtain ⟨n, rows⟩ := ih row
    obtain ⟨n, rows⟩ := rows_behind ends rows
    rw [cutRows, rows, if_neg fun first => by cases starts first]
    exact ⟨n, rfl⟩

theorem cutRows_of_oneRow (row : OneRow true (list.map atom)) :
    ∃ k l n, cutRows list = replicate k [] ++ l :: replicate n [] ∧
      (l = list ∨ l = clearGap list) := by
  cases list with
  | nil => exact ⟨0, [], 0, rfl, .inl rfl⟩
  | cons lex r =>
    obtain ⟨-, ends, row⟩ := row
    obtain ⟨n, rows⟩ := cutRows_of_oneRow_false row
    obtain ⟨n, rows⟩ := rows_behind ends rows
    rw [cutRows, rows]
    split
    · exact ⟨1, clearGap (lex :: r), n, rfl, .inr rfl⟩
    · exact ⟨0, lex :: r, n, rfl, .inl rfl⟩

theorem cutParts_append {depth : Int} {part : List (Lexeme α)}
    (whole : Whole depth (part.map atom)) (r : List (Lexeme α)) :
    cutParts depth (part ++ r) =
      (cutParts (depthAfter depth (part.map atom)) r).modifyHead (part ++ ·) := by
  induction part generalizing depth with
  | nil =>
    show cutParts depth r = (cutParts depth r).modifyHead id
    rw [modifyHead_id]
    rfl
  | cons lex part ih =>
    obtain ⟨o, whole⟩ := whole
    rw [cons_append, cutParts, if_neg (by simp [o]), ih whole, modifyHead_modifyHead]
    rfl

variable {right left : List (Atom α)}

theorem OneRow.of_append {a : Bool} (row : OneRow a (left ++ right)) :
    OneRow a left ∧ OneRow true right := by
  induction left generalizing a with
  | nil =>
    refine ⟨trivial, ?_⟩
    cases a with
    | true => exact row
    | false => exact weaken row
  | cons atom left ih =>
    obtain ⟨starts, ends, row⟩ := row
    obtain ⟨front, back⟩ := ih row
    exact ⟨⟨starts, fun last => (append_eq_nil_iff.mp (ends last)).1, front⟩, back⟩

theorem OneRow.of_isInfix {a : Bool} {atoms part : List (Atom α)} (row : OneRow a atoms)
    (hi : part <:+: atoms) : OneRow true part := by
  obtain ⟨pre, v, rfl⟩ := hi
  rw [append_assoc] at row
  exact row.of_append.2.of_append.1

theorem Whole.of_append {depth : Int} (whole : Whole depth (left ++ right)) : Whole depth left := by
  induction left generalizing depth with
  | nil => trivial
  | cons atom left ih => exact ⟨whole.1, ih whole.2⟩

end Fixpoints

section Apart

variable {c d : Char}

theorem apart_of_append {left right : List (Lexeme α)} (ha : Apart c d (left ++ right)) :
    Apart c d left ∧ Apart c d right := by
  induction left with
  | nil => exact ⟨trivial, ha⟩
  | cons lex left ih =>
    obtain ⟨single, ha⟩ := ha
    obtain ⟨front, back⟩ := ih ha
    refine ⟨⟨?_, front⟩, back⟩
    cases left with
    | nil => simp [startsSign]
    | cons next left => exact single

theorem apart_of_isInfix {part : List (Lexeme α)} (ha : Apart c d list) (hi : part <:+: list) :
    Apart c d part := by
  obtain ⟨pre, v, rfl⟩ := hi
  rw [append_assoc] at ha
  exact (apart_of_append (apart_of_append ha).2).1

/-- The gap in front of the first lexeme keeps nothing apart. -/
theorem apart_clearGap_iff : Apart c d (clearGap list) ↔ Apart c d list := by
  cases list <;> exact Iff.rfl

theorem apart_concat {e : Char} (o : e ≠ d) (ha : Apart c d list) (gap : Text) :
    Apart c d (list ++ [⟨gap, .sign e⟩]) := by
  induction list with
  | nil => exact ⟨by simp [startsSign], trivial⟩
  | cons lex r ih =>
    refine ⟨?_, ih ha.2⟩
    cases r with
    | nil => simp [startsSign, Atom.isSign, o]
    | cons next r => exact ha.1

theorem apart_respell (spell : Text → Text) (ha : Apart c d list) :
    Apart c d (respell spell list) := by
  have sign (e : Char) (atom : Atom α) : (atom.respell spell).isSign e = atom.isSign e := by
    cases atom <;> rfl
  induction list with
  | nil => trivial
  | cons lex r ih =>
    refine ⟨?_, ih ha.2⟩
    have single := ha.1
    cases r with
    | nil => simp [startsSign]
    | cons next r => simpa [startsSign, sign] using single

end Apart

section Settled

/-- A statement: what stands in it, and whether a semicolon ends it. -/
def ended (body : List (Lexeme α)) (closed : Bool) : List (Lexeme α) :=
  body ++ if closed then [⟨[], .sign ';'⟩] else []

structure IsSettled (body : List (Lexeme α)) (closed : Bool) : Prop where
  filled : body ≠ []
  lawful : AreLawful false body
  spelt : ∀ lexeme ∈ body, lexeme.atom.respell spelling = lexeme.atom
  apart : ∀ sign ∈ digraphs, Apart sign.1 sign.2.1 body
  row : OneRow true ((ended body closed).map atom)
  whole : Whole 0 (body.map atom)
  level : closed = true → depthAfter 0 (body.map atom) = 0
  spaced : clearGap (settle false false false body) = body

variable {statement part piece : List (Lexeme α)}

theorem exists_of_mem_statementsOfLists {depth : Int} {parts : List (List (Lexeme α))}
    (parted : Parted depth list parts) (top : depth = 0)
    (mem : statement ∈ statementsOfLists parts) :
    ∃ part closed gap, part ≠ [] ∧
      statement = ended (clearGap (settle false false false part)) closed ∧
      (part ++ if closed then [⟨gap, .sign ';'⟩] else []) <:+: list ∧
      Whole 0 (part.map atom) ∧ (closed → depthAfter 0 (part.map atom) = 0) := by
  induction parted with
  | @last depth part whole =>
    subst top
    rw [statementsOfLists] at mem
    split at mem
    · cases mem
    · next filled =>
      refine ⟨part, false, [], by simpa using filled, ?_, ?_, whole, by simp⟩
      · simpa [ended, statementsOfLists] using mem
      · simp
  | @cons depth part behind r gap whole level others ih =>
    subst top
    have inner {middle : List (Lexeme α)} (hi : middle <:+: behind) :
        middle <:+: part ++ ⟨gap, .sign ';'⟩ :: behind :=
      hi.trans ((suffix_cons ..).trans (suffix_append ..)).isInfix
    have more : r.isEmpty = false := by cases others <;> rfl
    have later (mem : statement ∈ statementsOfLists r) : ∃ part' closed gap', part' ≠ [] ∧
          statement = ended (clearGap (settle false false false part')) closed ∧
          (part' ++ if closed then [⟨gap', .sign ';'⟩] else []) <:+:
            part ++ ⟨gap, .sign ';'⟩ :: behind ∧
          Whole 0 (part'.map atom) ∧
          (closed → depthAfter 0 (part'.map atom) = 0) := by
      obtain ⟨part', closed, gap', filled, shape, hi, r⟩ := ih rfl mem
      exact ⟨part', closed, gap', filled, shape, inner hi, r⟩
    rw [statementsOfLists] at mem
    split at mem
    · exact later mem
    · next filled =>
      rcases mem_cons.mp mem with rfl | mem
      · refine ⟨part, true, gap, by simpa using filled, ?_, ?_, whole, fun _ => level⟩
        · simp [ended, more]
        · exact ⟨[], behind, by simp⟩
      · exact later mem

theorem spelled_respell (list : List (Lexeme α)) :
    ∀ lex ∈ respell spelling list, lex.atom.respell spelling = lex.atom := by
  intro lex mem
  obtain ⟨old, -, rfl⟩ := mem_map.mp mem
  cases old.atom with
  | word t => exact congrArg Atom.word (spelling_spelling t)
  | sign c => rfl
  | held a => rfl

theorem spelled_joinSigns (spelt : ∀ lex ∈ list, lex.atom.respell spelling = lex.atom) :
    ∀ lex ∈ joinSigns list, lex.atom.respell spelling = lex.atom :=
  joinSigns_induction (fun new => ∀ lex ∈ new, lex.atom.respell spelling = lex.atom) spelt
    fun _ _ _ _ merged held => merged.forall_mem held fun _ _ => rfl

theorem spelled_of_atoms {left right : List (Lexeme α)} (eq : left.map atom = right.map atom)
    (spelt : ∀ lex ∈ right, lex.atom.respell spelling = lex.atom) :
    ∀ lex ∈ left, lex.atom.respell spelling = lex.atom := by
  have atoms : ∀ atom ∈ right.map Lexeme.atom, atom.respell spelling = atom := by
    simpa using spelt
  rw [← eq] at atoms
  simpa using atoms

theorem exists_of_isInfix_clearGap (hi : part <:+: clearGap piece) :
    ∃ piece', piece' <:+: piece ∧ (part = piece' ∨ part = clearGap piece') := by
  cases piece with
  | nil => exact ⟨part, hi, .inl rfl⟩
  | cons lex r =>
    rcases infix_cons_iff.mp hi with start | later
    · cases part with
      | nil => exact ⟨[], nil_infix, .inl rfl⟩
      | cons first part =>
        obtain ⟨rfl, further⟩ := cons_prefix_cons.mp start
        exact ⟨lex :: part, (cons_prefix_cons.mpr ⟨rfl, further⟩).isInfix, .inr rfl⟩
    · exact ⟨part, later.trans (suffix_cons ..).isInfix, .inl rfl⟩

theorem exists_part (mem : statement ∈ statements list) :
    ∃ piece part closed, piece <:+: joinSigns (respell spelling list) ∧
      (part = piece ∨ part = clearGap piece) ∧ part ≠ [] ∧
      statement = ended (clearGap (settle false false false part)) closed ∧
      OneRow true ((ended part closed).map atom) ∧ Whole 0 (part.map atom) ∧
      (closed → depthAfter 0 (part.map atom) = 0) := by
  obtain ⟨row, rows, parts⟩ := mem_flatMap.mp mem
  obtain ⟨piece, hi, eq, oneRow⟩ := exists_infix_of_mem_cutRows rows
  obtain ⟨part, closed, gap, filled, rfl, within, whole, level⟩ :=
    exists_of_mem_statementsOfLists (parted_cutParts 0 row) rfl parts
  have inRow : part <:+: row := (prefix_append ..).isInfix.trans within
  obtain ⟨piece', inPiece, same'⟩ :
      ∃ piece', piece' <:+: piece ∧ (part = piece' ∨ part = clearGap piece') := by
    rcases eq with rfl | rfl
    · exact ⟨part, inRow, .inl rfl⟩
    · exact exists_of_isInfix_clearGap inRow
  refine ⟨piece', part, closed, inPiece.trans hi, same', filled, rfl, ?_, whole, level⟩
  have atoms : (ended part closed).map atom =
      (part ++ if closed then ([⟨gap, .sign ';'⟩] : List (Lexeme α)) else []).map atom := by
    rw [ended, map_append, map_append]
    cases closed <;> rfl
  rw [atoms]
  exact oneRow.of_isInfix (within.map atom)

theorem apart_settled {c d : Char} (o : d ≠ ',') (eq : part = piece ∨ part = clearGap piece)
    (ha : Apart c d piece) : Apart c d (clearGap (settle false false false part)) := by
  have ha : Apart c d part := by
    rcases eq with rfl | rfl
    · exact ha
    · exact apart_clearGap_iff.mpr ha
  exact apart_clearGap_iff.mpr ((regapped_settle ..).apart o ha)

theorem apart_of_mem_statements {c d : Char}
    (fresh : ∀ sign ∈ digraphs, sign.2.2 ≠ c ∧ sign.2.2 ≠ d) (o : d ≠ ',' ∧ d ≠ ';')
    (ha : Apart c d list) (mem : statement ∈ statements list) : Apart c d statement := by
  obtain ⟨piece, part, closed, hi, eq, -, rfl, -⟩ := exists_part mem
  have joined := keeps_apart_joinSigns fresh (apart_respell spelling ha)
  have settled := apart_settled o.1 eq (apart_of_isInfix joined hi)
  unfold ended
  cases closed with
  | true => exact apart_concat o.2.symm settled []
  | false => simpa using settled

theorem exists_isSettled (lawful : AreLawful false list) (mem : statement ∈ statements list) :
    ∃ body closed, statement = ended body closed ∧ IsSettled body closed ∧
      body.map atom ⊆ (joinSigns (respell spelling list)).map atom := by
  obtain ⟨piece, part, closed, hi, eq, filled, rfl, row, whole, level⟩ := exists_part mem
  have joined := lawful_joinSigns (lawful.respell fun _ => spelling_lawful)
  have lawful' : AreLawful false part := by
    rcases eq with rfl | rfl
    · exact lawful_of_isInfix joined hi
    · exact lawful_clearGap (lawful_of_isInfix joined hi)
  have settled := atoms_settled part
  have atoms : (clearGap (settle false false false part)).map atom = piece.map atom := by
    rw [settled]
    rcases eq with rfl | rfl
    · rfl
    · exact atoms_clearGap piece
  have spelt := spelled_joinSigns (spelled_respell list)
  have noComma : ∀ sign ∈ digraphs, sign.2.1 ≠ ',' := by decide
  refine ⟨_, closed, rfl, ?_, ?_⟩
  rotate_left
  · rw [atoms]
    exact (hi.map atom).subset
  constructor
  case filled =>
    intro empty
    rw [empty, map_nil, eq_comm, map_eq_nil_iff] at settled
    exact filled settled
  case lawful => exact lawful_clearGap ((regapped_settle ..).lawful lawful')
  case spelt =>
    exact spelled_of_atoms atoms fun lexeme member => spelt lexeme (hi.subset member)
  case apart =>
    exact fun sign member => apart_settled (noComma sign member) eq
      (apart_of_isInfix (apart_joinSigns _ sign member) hi)
  case row =>
    rw [ended, map_append, settled, ← map_append]
    exact row
  case whole => rwa [settled]
  case level => rwa [settled]
  case spaced => rw [clearGap_settle_clearGap, settle_settle _ _ _ (by simp)]

theorem respell_of_spelled (spelt : ∀ lexeme ∈ list, lexeme.atom.respell spelling = lexeme.atom) :
    respell spelling list = list := by
  have eq : ∀ lexeme ∈ list, (⟨lexeme.gap, lexeme.atom.respell spelling⟩ : Lexeme α) = lexeme :=
    fun lexeme mem => by rw [spelt lexeme mem]
  rw [respell, map_congr_left eq, map_id']

theorem flatMap_rows {k n : Nat} (l : List (Lexeme α)) :
    ((replicate k [] ++ l :: replicate n []).flatMap fun row =>
      statementsOfLists (cutParts 0 row)) = statementsOfLists (cutParts 0 l) := by
  have missed (n : Nat) : ((replicate n ([] : List (Lexeme α))).flatMap fun row =>
      statementsOfLists (cutParts 0 row)) = [] := by
    rw [flatMap_eq_nil_iff]
    intro row mem
    rw [eq_of_mem_replicate mem]
    rfl
  rw [flatMap_append, flatMap_cons, missed, missed, append_nil, nil_append]

namespace IsSettled

variable {body : List (Lexeme α)} {closed : Bool}

theorem clearGap_eq (settled : IsSettled body closed) : clearGap body = body := by
  rw [← settled.spaced]
  cases settle false false false body <;> rfl

variable {indented : List (Lexeme α)}

theorem statementsOfLists_eq (settled : IsSettled body closed) (eq : clearGap indented = body) :
    statementsOfLists (cutParts 0 (ended indented closed)) = [ended body closed] := by
  have atoms : indented.map atom = body.map atom := by
    rw [← eq, atoms_clearGap]
  have filled : indented.isEmpty = false := by
    cases indented with
    | nil => exact absurd eq.symm settled.filled
    | cons lex r => rfl
  have spaced : clearGap (settle false false false indented) = body := by
    rw [← clearGap_settle_clearGap, eq, settled.spaced]
  have whole : Whole 0 (indented.map atom) := by
    rw [atoms]
    exact settled.whole
  have empty : ∀ depth, cutParts depth ([] : List (Lexeme α)) = [[]] := fun _ => rfl
  rw [ended, cutParts_append whole, atoms]
  cases closed with
  | false => simp [empty, statementsOfLists, filled, spaced, ended]
  | true =>
    rw [settled.level rfl]
    have parts : cutParts 0 [(⟨[], .sign ';'⟩ : Lexeme α)] = [[], []] := rfl
    simp [parts, statementsOfLists, filled, spaced, ended]

/-- A settled statement that stands on a line of its own is the statement of that line. The gap in
front of it may be any. -/
theorem statements_eq (settled : IsSettled body closed) (eq : clearGap indented = body) :
    statements (ended indented closed) = [ended body closed] := by
  have atoms : indented.map atom = body.map atom := by
    rw [← eq, atoms_clearGap]
  have marked : (ended indented closed).map atom = (ended body closed).map atom := by
    rw [ended, ended, map_append, map_append, atoms]
  have respelled : respell spelling (ended indented closed) = ended indented closed := by
    refine respell_of_spelled (spelled_of_atoms marked ?_)
    intro lex mem
    rcases mem_append.mp mem with hi | mark
    · exact settled.spelt lex hi
    · cases closed with
      | true =>
        rw [mem_singleton.mp mark]
        rfl
      | false => cases mark
  have joined : joinSigns (ended indented closed) = ended indented closed := by
    refine joinSigns_of_apart fun sign mem => ?_
    have ho : ∀ sign ∈ digraphs, ';' ≠ sign.2.1 := by decide
    have ha : Apart sign.1 sign.2.1 indented := by
      rw [← apart_clearGap_iff, eq]
      exact settled.apart sign mem
    unfold ended
    cases closed with
    | true => exact apart_concat (ho sign mem) ha []
    | false => simpa using ha
  obtain ⟨k, l, n, rows, isLine⟩ := cutRows_of_oneRow (marked ▸ settled.row)
  obtain ⟨bare, rfl, same'⟩ : ∃ bare, l = ended bare closed ∧ clearGap bare = body := by
    rcases isLine with rfl | rfl
    · exact ⟨indented, rfl, eq⟩
    · refine ⟨body, ?_, settled.clearGap_eq⟩
      cases indented with
      | nil => exact absurd eq.symm settled.filled
      | cons lex r =>
        rw [← eq]
        rfl
  rw [statements, respelled, joined, rows, flatMap_rows, settled.statementsOfLists_eq same']

theorem front (settled : IsSettled body closed) {front rest : List (Lexeme α)} {gap : Text}
    (shape : body = front ++ ⟨gap, .sign '/'⟩ :: rest) (filled : front ≠ []) :
    IsSettled front false := by
  subst shape
  constructor
  case filled => exact filled
  case lawful => exact settled.lawful.of_append.1
  case spelt => exact (forall_mem_append.mp settled.spelt).1
  case apart => exact fun sign mem => (apart_of_append (settled.apart sign mem)).1
  case row =>
    have row := settled.row
    rw [ended, append_assoc, map_append] at row
    simpa [ended] using row.of_append.1
  case whole =>
    have whole := settled.whole
    rw [map_append] at whole
    exact whole.of_append
  case level => exact fun impossible => by cases impossible
  case spaced =>
    have apart : startsSign '=' (⟨gap, .sign '/'⟩ :: rest) = false := by
      simp [startsSign, Atom.isSign]
    obtain ⟨behind, further⟩ := settle_append apart false false false front
    have spaced := settled.spaced
    obtain ⟨lexeme, front', shape⟩ := exists_cons_of_ne_nil filled
    rw [further] at spaced
    have cleared : clearGap (settle false false false front ++ behind) =
        clearGap (settle false false false front) ++ behind := by
      rw [shape]
      rfl
    rw [cleared] at spaced
    refine (append_inj spaced ?_).1
    have atoms := congrArg length (atoms_settled front)
    simpa using atoms

end IsSettled

end Settled

end PrimePlus.Program
