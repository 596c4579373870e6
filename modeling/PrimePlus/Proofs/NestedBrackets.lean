import PrimePlus.Proofs.Seams

/-!
Texts with nested brackets. What is looked for outside them does not see what is inside, and
brackets that are balanced in a text are balanced in each of its parts between separators outside of
them. -/

namespace PrimePlus

open List

theorem Text.join_cons_cons (sep : Char) (part next : Text) (r : List Text) :
    join [sep] (part :: next :: r) = part ++ sep :: join [sep] (next :: r) := by
  simp [join]

namespace Lexical

theorem closingOffset?_other {c : Char} (opens : c ≠ '(') (closes : c ≠ ')') (d : Nat)
    (t : Text) : closingOffset? d (c :: t) = (closingOffset? d t).map (· + 1) := by
  cases d <;> simp [closingOffset?, opens, closes]

theorem neutral_of {accepts : Char → Bool} {sep : Char}
    (rejects : (sep :: "([{)]}".toList).all (fun c => !accepts c)) {c : Char} (acc : accepts c) :
    c ≠ sep ∧ bracketStep c = 0 := by
  have ho {d : Char} (mem : d ∈ sep :: "([{)]}".toList) : c ≠ d := by
    rintro rfl
    have rejected := all_eq_true.mp rejects c mem
    rw [acc] at rejected
    cases rejected
  refine ⟨ho mem_cons_self, ?_⟩
  have no {d : Char} (mem : d ∈ "([{)]}".toList) : (c == d) = false := by
    simpa using ho (mem_cons_of_mem sep mem)
  unfold bracketStep
  rw [no (by decide), no (by decide), no (by decide), no (by decide), no (by decide),
    no (by decide)]
  rfl

theorem splitTopFrom_append_of_neutral {sep : Char} {s : Text}
    (neutral : ∀ c ∈ s, c ≠ sep ∧ bracketStep c = 0) (d : Int) (t : Text) :
    splitTopFrom sep d (s ++ t) = (splitTopFrom sep d t).modifyHead (s ++ ·) := by
  obtain ⟨part, parts, split⟩ := exists_cons_of_ne_nil (splitTopFrom_ne_nil sep d t)
  rw [split]
  induction s with
  | nil => exact split
  | cons c s ih =>
    obtain ⟨o, flat⟩ := neutral c mem_cons_self
    have hr := ih (forall_mem_cons.mp neutral).2
    rw [cons_append, splitTopFrom, if_neg (by simp [o]), flat, Int.add_zero, hr]
    rfl

/-- Whether the brackets of a text are nested. A comma outside all of them may be asked not to
occur. -/
inductive IsNested : Bool → Text → Prop
  | nil {commas : Bool} : IsNested commas []
  | char {commas : Bool} {c : Char} {rest : Text} (plain : bracketStep c = 0)
      (free : c = ',' → commas = true) (behind : IsNested commas rest) : IsNested commas (c :: rest)
  | enclosed {commas : Bool} {first last : Char} {inside rest : Text}
      (pair : (first, last) ∈ [('(', ')'), ('[', ']'), ('{', '}')])
      (within : IsNested true inside) (behind : IsNested commas rest) :
      IsNested commas (first :: (inside ++ last :: rest))

namespace IsNested

variable {commas : Bool} {left right t : Text}

theorem append (nested : IsNested commas left) (nested' : IsNested commas right) :
    IsNested commas (left ++ right) := by
  induction nested with
  | nil => exact nested'
  | char hp free _ ih => exact .char hp free (ih nested')
  | @enclosed commas first last hi r pair within _ _ ih =>
    rw [cons_append, append_assoc]
    exact .enclosed pair within (ih nested')

theorem weaken (nested : IsNested commas t) : IsNested true t := by
  induction nested with
  | nil => exact .nil
  | char hp _ _ ih => exact .char hp (fun _ => rfl) ih
  | enclosed pair within _ _ ih => exact .enclosed pair within ih

theorem of_all (hp : ∀ c ∈ t, bracketStep c = 0 ∧ (c = ',' → commas)) : IsNested commas t := by
  induction t with
  | nil => exact .nil
  | cons c cs ih =>
    obtain ⟨first, others⟩ := forall_mem_cons.mp hp
    exact .char first.1 first.2 (ih others)

end IsNested

theorem IsNested.closingOffset?_append {commas : Bool} {t : Text} (nested : IsNested commas t)
    (d : Nat) (r : Text) : closingOffset? (d + 1) (t ++ r) =
      (closingOffset? (d + 1) r).map (· + t.length) := by
  have shift (hit : Option Nat) (n : Nat) : (hit.map (· + n)).map (· + 1) =
      hit.map (· + (n + 1)) := by
    cases hit <;> rfl
  induction nested generalizing d r with
  | nil => simp
  | @char commas c t hp _ _ ih =>
    have ha : c ≠ '(' ∧ c ≠ ')' := by
      constructor <;> rintro rfl <;> cases hp
    rw [cons_append, closingOffset?_other ha.1 ha.2, ih, shift, length_cons]
  | @enclosed commas x last a t pair _ _ within v =>
    have long : (x :: (a ++ last :: t)).length = t.length + 1 + a.length + 1 := by
      simp only [length_cons, length_append]
      omega
    rw [cons_append, append_assoc, cons_append, long]
    simp only [mem_cons, not_mem_nil, or_false] at pair
    rcases pair with ⟨rfl, rfl⟩ | ⟨rfl, rfl⟩ | ⟨rfl, rfl⟩
    · have opens (t : Text) : closingOffset? (d + 1) ('(' :: t) =
          (closingOffset? (d + 2) t).map (· + 1) := rfl
      have closes (t : Text) : closingOffset? (d + 2) (')' :: t) =
          (closingOffset? (d + 1) t).map (· + 1) := rfl
      rw [opens, within, closes, v]
      simp [Function.comp_def, Nat.add_assoc]
    all_goals
      rw [closingOffset?_other (by decide) (by decide), within,
        closingOffset?_other (by decide) (by decide), v]
      simp [Function.comp_def, Nat.add_assoc]

theorem cutParens?_of_isNested {a : Text} (nested : IsNested true a) (r : Text) :
    cutParens? ('(' :: (a ++ ')' :: r)) = some (a, r) := by
  have opens : closingOffset? 0 ('(' :: (a ++ ')' :: r)) =
      (closingOffset? 1 (a ++ ')' :: r)).map (· + 1) := rfl
  have closes : closingOffset? 1 (')' :: r) = some 0 := rfl
  rw [cutParens?, opens, nested.closingOffset?_append, closes]
  simp

/-- Nested brackets belong to the first part, where no comma outside them would divide it. -/
theorem IsNested.splitTopFrom_append {commas : Bool} {t : Text} (nested : IsNested commas t)
    {depth : Int} (natural : 0 ≤ depth) (inner : commas → 0 < depth) (rest : Text) :
    splitTopFrom ',' depth (t ++ rest) = (splitTopFrom ',' depth rest).modifyHead (t ++ ·) := by
  have step {c : Char} {depth : Int} (whole : c = ',' → 0 < depth) (t : Text) :
      splitTopFrom ',' depth (c :: t) =
        (splitTopFrom ',' (depth + bracketStep c) t).modifyHead (c :: ·) := by
    obtain ⟨part, parts, parted⟩ :=
      exists_cons_of_ne_nil (splitTopFrom_ne_nil ',' (depth + bracketStep c) t)
    have undivided : ¬(c = ',' && depth = 0) := by
      intro divides
      simp only [Bool.and_eq_true, decide_eq_true_eq] at divides
      exact absurd (whole divides.1) (by omega)
    rw [splitTopFrom, if_neg undivided, parted]
    rfl
  induction nested generalizing depth rest with
  | nil =>
    obtain ⟨part, parts, parted⟩ := exists_cons_of_ne_nil (splitTopFrom_ne_nil ',' depth rest)
    rw [nil_append, parted]
    rfl
  | @char commas c t hp free _ ih =>
    rw [cons_append, step (fun comma => inner (free comma)), hp, Int.add_zero,
      ih natural inner, modifyHead_modifyHead]
    rfl
  | @enclosed commas first last inside t pair _ _ within behind =>
    obtain ⟨opens, closes, first', last'⟩ : bracketStep first = 1 ∧ bracketStep last = -1 ∧
        first ≠ ',' ∧ last ≠ ',' := by
      have all : ∀ pair ∈ [('(', ')'), ('[', ']'), ('{', '}')],
          bracketStep pair.1 = 1 ∧ bracketStep pair.2 = -1 ∧ pair.1 ≠ ',' ∧ pair.2 ≠ ',' := by
        decide
      exact all _ pair
    have back : depth + 1 + -1 = depth := by omega
    rw [cons_append, append_assoc, cons_append, step (absurd · first'), opens,
      within (by omega) (fun _ => by omega), step (absurd · last'), closes, back,
      behind natural inner]
    simp [Function.comp_def]

theorem splitTop_join {arguments : List Text} (ne : arguments ≠ [])
    (nested : ∀ argument ∈ arguments, IsNested false argument) :
    splitTop ',' (Text.join [','] arguments) = arguments := by
  induction arguments with
  | nil => exact absurd rfl ne
  | cons argument r ih =>
    obtain ⟨first, others⟩ := forall_mem_cons.mp nested
    have cut (tail : Text) := first.splitTopFrom_append Int.le_rfl (fun no => nomatch no) tail
    cases r with
    | nil =>
      have whole := cut []
      simpa [splitTop, Text.join, splitTopFrom] using whole
    | cons next r =>
      have divided (t : Text) : splitTopFrom ',' 0 (',' :: t) = [] :: splitTopFrom ',' 0 t := rfl
      rw [splitTop] at ih ⊢
      rw [Text.join_cons_cons, cut, divided, ih (cons_ne_nil next r) others, modifyHead_cons,
        append_nil]

open Text

/-- How a text changes the number of open brackets. -/
def level : Text → Int
  | [] => 0
  | c :: cs => bracketStep c + level cs

theorem level_append (left right : Text) : level (left ++ right) = level left + level right := by
  induction left with
  | nil => exact (Int.zero_add _).symm
  | cons c cs ih => rw [cons_append, level, level, ih, Int.add_assoc]

/-- Whether all brackets of a text are closed and none was closed before it was opened, when `depth`
brackets are open in front of it. -/
structure IsBalancedFrom (depth : Int) (t : Text) : Prop where
  closed : depth + level t = 0
  opened : ∀ pre, pre <+: t → 0 ≤ depth + level pre

/-- A number of characters in front of a separator between two of the parts. -/
def IsCut (sep : Char) (parts : List Text) (n : Nat) : Prop :=
  ∃ left right, left ≠ [] ∧ right ≠ [] ∧ parts = left ++ right ∧ n = (join [sep] left).length

section Parts

variable {sep c : Char} {depth : Int} {part t : Text} {parts : List Text} {n : Nat}

theorem isCut_cons_iff : IsCut sep (part :: parts) n ↔ ∃ left right, right ≠ [] ∧
    parts = left ++ right ∧ n = (join [sep] (part :: left)).length := by
  constructor
  · rintro ⟨left, right, filled, more, eq, size⟩
    obtain ⟨first, left, rfl⟩ := exists_cons_of_ne_nil filled
    obtain ⟨rfl, rfl⟩ := cons.inj eq
    exact ⟨left, right, more, rfl, size⟩
  · rintro ⟨left, right, more, rfl, size⟩
    exact ⟨part :: left, right, cons_ne_nil _ _, more, rfl, size⟩

theorem isCut_nil_cons_succ (ne : parts ≠ []) :
    IsCut sep ([] :: parts) (n + 1) ↔ IsCut sep parts n := by
  have joined {left : List Text} (ne : left ≠ []) :
      (join [sep] ([] :: left)).length = (join [sep] left).length + 1 := by
    obtain ⟨next, left, rfl⟩ := exists_cons_of_ne_nil ne
    rw [join_cons_cons, nil_append, length_cons]
  rw [isCut_cons_iff]
  constructor
  · rintro ⟨left, right, more, rfl, size⟩
    have ne' : left ≠ [] := by
      rintro rfl
      cases size
    rw [joined ne', Nat.add_right_cancel_iff] at size
    exact ⟨left, right, ne', more, rfl, size⟩
  · rintro ⟨left, right, filled, more, rfl, rfl⟩
    exact ⟨left, right, more, rfl, (joined filled).symm⟩

theorem isCut_cons_succ :
    IsCut sep ((c :: part) :: parts) (n + 1) ↔ IsCut sep (part :: parts) n := by
  have joined (left : List Text) :
      (join [sep] ((c :: part) :: left)).length = (join [sep] (part :: left)).length + 1 := by
    cases left with
    | nil => simp [join]
    | cons next left => rw [join_cons_cons, join_cons_cons, cons_append, length_cons]
  simp only [isCut_cons_iff, joined, Nat.add_right_cancel_iff]

theorem not_isCut_cons_zero : ¬IsCut sep ((c :: part) :: parts) 0 := by
  rw [isCut_cons_iff]
  rintro ⟨left, right, -, -, size⟩
  cases left <;> cases size

theorem isCut_splitTopFrom (other : bracketStep sep = 0) (depth : Int) (t : Text) (n : Nat) :
    IsCut sep (splitTopFrom sep depth t) n ↔ t[n]? = some sep ∧ depth + level (t.take n) = 0 := by
  induction t generalizing depth n with
  | nil =>
    refine ⟨?_, nofun⟩
    rintro ⟨left, right, filled, more, eq, -⟩
    rcases append_eq_singleton_iff.mp eq.symm with ⟨missed, -⟩ | ⟨-, missed⟩
    · exact absurd missed filled
    · exact absurd missed more
  | cons c t ih =>
    by_cases cut : c = sep ∧ depth = 0
    · obtain ⟨rfl, rfl⟩ := cut
      have ne := splitTopFrom_ne_nil c 0 t
      rw [splitTopFrom, if_pos (by simp)]
      cases n with
      | zero => exact iff_of_true ⟨[[]], _, cons_ne_nil _ _, ne, rfl, rfl⟩ ⟨rfl, rfl⟩
      | succ n =>
        rw [isCut_nil_cons_succ ne, ih, getElem?_cons_succ, take_succ_cons, level, other,
          ← Int.add_assoc, Int.add_zero]
    · obtain ⟨part, parts, eq⟩ :=
        exists_cons_of_ne_nil (splitTopFrom_ne_nil sep (depth + bracketStep c) t)
      rw [splitTopFrom, if_neg (by simpa using cut), eq, consHead]
      cases n with
      | zero =>
        refine iff_of_false not_isCut_cons_zero ?_
        rintro ⟨here, flat⟩
        exact cut ⟨by simpa using here, by simpa [level] using flat⟩
      | succ n =>
        rw [isCut_cons_succ, ← eq, ih, getElem?_cons_succ, take_succ_cons, level, Int.add_assoc]

theorem isBalancedFrom_cons :
    IsBalancedFrom depth (c :: t) ↔ 0 ≤ depth ∧ IsBalancedFrom (depth + bracketStep c) t := by
  constructor
  · rintro ⟨closed, opened⟩
    refine ⟨by simpa [level] using opened [] nil_prefix, ?_, ?_⟩
    · rwa [Int.add_assoc]
    · intro pre le
      rw [Int.add_assoc]
      exact opened (c :: pre) (cons_prefix_cons.mpr ⟨rfl, le⟩)
  · rintro ⟨filled, closed, opened⟩
    refine ⟨by rwa [level, ← Int.add_assoc], ?_⟩
    intro pre le
    rcases prefix_cons_iff.mp le with rfl | ⟨more, rfl, inner⟩
    · simpa [level] using filled
    · rw [level, ← Int.add_assoc]
      exact opened more inner

/-- The first part goes on from the brackets that are open, and each other one starts outside
them. -/
theorem isBalancedFrom_splitTopFrom (other : bracketStep sep = 0)
    (balanced : IsBalancedFrom depth t) :
    ∃ part parts, splitTopFrom sep depth t = part :: parts ∧ IsBalancedFrom depth part ∧
      ∀ part ∈ parts, IsBalancedFrom 0 part := by
  induction t generalizing depth with
  | nil => exact ⟨[], [], rfl, balanced, nofun⟩
  | cons c t ih =>
    obtain ⟨filled, further⟩ := isBalancedFrom_cons.mp balanced
    obtain ⟨part, parts, eq, first, rest⟩ := ih further
    by_cases cut : c = sep ∧ depth = 0
    · obtain ⟨rfl, rfl⟩ := cut
      rw [other] at eq first
      refine ⟨[], part :: parts, ?_, ⟨rfl, ?_⟩, forall_mem_cons.mpr ⟨first, rest⟩⟩
      · rw [splitTopFrom, if_pos (by simp)]
        exact congrArg ([] :: ·) eq
      · intro pre le
        rw [prefix_nil.mp le]
        exact Int.le_refl 0
    · refine ⟨c :: part, parts, ?_, isBalancedFrom_cons.mpr ⟨filled, first⟩, rest⟩
      rw [splitTopFrom, if_neg (by simpa using cut), eq]
      rfl

end Parts

/-- Splitting a text loses nothing. It is cut at the separators outside all brackets and nowhere
else, and a text whose brackets are balanced has only such parts. -/
theorem splitTop_cuts_outside_brackets (sep : Char) (t : Text) (other : bracketStep sep = 0) :
    join [sep] (splitTop sep t) = t ∧
      (∀ n, IsCut sep (splitTop sep t) n ↔ t[n]? = some sep ∧ level (t.take n) = 0) ∧
      (IsBalancedFrom 0 t → ∀ part ∈ splitTop sep t, IsBalancedFrom 0 part) ∧
      (isBlankText t = false → splitArguments t = splitTop ',' t) := by
  refine ⟨join_splitTopFrom sep 0 t, ?_, ?_, ?_⟩
  · intro n
    have cuts := isCut_splitTopFrom other 0 t n
    rwa [Int.zero_add] at cuts
  · intro balanced
    obtain ⟨part, parts, eq, first, rest⟩ := isBalancedFrom_splitTopFrom other balanced
    rw [splitTop, eq]
    exact forall_mem_cons.mpr ⟨first, rest⟩
  · intro filled
    rw [splitArguments_eq, filled, if_neg Bool.false_ne_true]

theorem splitTop_cuts_behind_parentheses :
    bracketStep ';' = 0 ∧ IsCut ';' (splitTop ';' "f(a;b);c".toList) 6 ∧
      ¬IsCut ';' (splitTop ';' "f(a;b);c".toList) 3 := by
  have cuts := (splitTop_cuts_outside_brackets ';' "f(a;b);c".toList (by decide)).2.1
  exact ⟨by decide, (cuts 6).mpr (by decide), fun cut => absurd ((cuts 3).mp cut) (by decide)⟩

end Lexical

end PrimePlus
