import PrimePlus.Construct.Conditional
import PrimePlus.Proofs.NestedBrackets
import PrimePlus.Proofs.TextLines

/-!
Conditional expressions as trees, their lowering, and the calls that it leaves with the number of
their arguments.
-/

namespace PrimePlus.Construct.Conditional

open List Lexical

open Unicode (isBlank isNameChar)

variable {t left right inside : Text} {prev : Option Char}

section Trees

/-- Whether every colon stands next to another one, so that none divides branches. -/
def isUndivided (prev : Option Char) : Text → Bool
  | [] => true
  | c :: cs => (c != ':' || prev == some ':' || cs.head? == some ':') && isUndivided (some c) cs

/-- Whether a text has no brackets, question marks and single colons, and no commas unless they are
allowed. -/
def isBare (commas : Bool) (t : Text) : Bool :=
  t.all (fun c => bracketStep c == 0 && c != '?' && (c != ',' || commas)) && isUndivided none t

def isShown (c : Char) : Bool :=
  !isBlank c

structure Atom (commas : Bool) where
  text : Text
  bare : isBare commas text = true := by decide
  starts : text.head?.any isShown = true := by decide
  ends : text.getLast?.any isShown = true := by decide

structure Name where
  text : Text
  filled : text ≠ [] := by decide
  named : text.all isNameChar = true := by decide

/-- An operator with the blanks around it. It does not end like a name, so that a parenthesis behind
it belongs to no call. -/
structure Operator (commas : Bool) where
  text : Text
  bare : isBare commas text = true := by decide
  apart : text.getLast?.any (fun c => !isNameChar c) = true := by decide

mutual

inductive Term (commas : Bool) where
  | atom (a : Atom commas)
  | empty (name : Name)
  | call (name : Name) (argument : Expr commas)
  | calls (name : Name) (first : Term commas) (gap : Nat) (rest : Args commas)
  | group (content : Expr commas)
  | signed (sign : Operator commas) (starts : sign.text.head?.any isShown = true)
    (operand : Term commas)
  | joined (left : Term commas) (sign : Operator commas) (right : Term commas)

/-- What may stand alone between parentheses and as a branch: a conditional or another
expression. -/
inductive Expr (commas : Bool) where
  | plain (t : Term commas)
  | choice (condition : Term commas) (yes no : Expr commas)

/-- The further arguments of a call, with a number of spaces behind each comma. -/
inductive Args (commas : Bool) where
  | last (t : Term commas)
  | more (t : Term commas) (gap : Nat) (rest : Args commas)

end

variable {commas : Bool}

def comma (gap : Nat) : Text :=
  ',' :: replicate gap ' '

def parens (inside : Text) : Text :=
  '(' :: (inside ++ [')'])

mutual

def Term.text : Term commas → Text
  | .atom a => a.text
  | .empty name => name.text ++ parens []
  | .call name argument => name.text ++ parens argument.text
  | .calls name first gap rest => name.text ++ parens (first.text ++ (comma gap ++ rest.text))
  | .group content => parens content.text
  | .signed sign _ operand => sign.text ++ operand.text
  | .joined left sign right => left.text ++ (sign.text ++ right.text)

def Expr.text : Expr commas → Text
  | .plain t => t.text
  | .choice condition yes no =>
    condition.text ++ (" ? ".toList ++ (yes.text ++ (" : ".toList ++ no.text)))

def Args.text : Args commas → Text
  | .last t => t.text
  | .more t gap rest => t.text ++ (comma gap ++ rest.text)

end

def ifte : Name := { text := "IFTE".toList }

def Expr.toTerm : Expr commas → Term commas
  | .plain t => t
  | .choice condition yes no =>
    .calls ifte condition 1 (.more yes.toTerm 1 (.last no.toTerm))

/-- What parentheses around an expression become where they belong to no call. -/
def Expr.enclosed : Expr commas → Term commas
  | .plain t => .group (.plain t)
  | .choice condition yes no => (choice condition yes no).toTerm

mutual

def Term.lowered : Term commas → Term commas
  | .atom a => .atom a
  | .empty name => .empty name
  | .call name argument => .call name (.plain argument.lowered.toTerm)
  | .calls name first gap rest => .calls name first.lowered gap rest.lowered
  | .group content => content.lowered.enclosed
  | .signed sign starts operand => .signed sign starts operand.lowered
  | .joined left sign right => .joined left.lowered sign right.lowered

def Expr.lowered : Expr commas → Expr commas
  | .plain t => .plain t.lowered
  | .choice condition yes no =>
    .choice condition.lowered yes.lowered no.lowered

def Args.lowered : Args commas → Args commas
  | .last t => .last t.lowered
  | .more t gap rest => .more t.lowered gap rest.lowered

end

end Trees

variable {commas : Bool}

section Scanning

/-- The character before what follows a text, if `prev` stands before the text. -/
def behind (prev : Option Char) (t : Text) : Option Char :=
  t.foldl (fun _ c => some c) prev

theorem behind_append (prev : Option Char) (left right : Text) :
    behind prev (left ++ right) = behind (behind prev left) right :=
  foldl_append

theorem isUndivided_of_none (undivided : isUndivided none t) (prev : Option Char) :
    isUndivided prev t := by
  cases t with
  | nil => rfl
  | cons c cs =>
    simp only [isUndivided, Bool.and_eq_true, Bool.or_eq_true] at undivided ⊢
    exact ⟨undivided.1.imp_left fun first => .inl (first.resolve_right nofun), undivided.2⟩

theorem isUndivided_append (undivided : isUndivided prev left)
    (undivided' : isUndivided none right) : isUndivided prev (left ++ right) := by
  induction left generalizing prev with
  | nil => exact isUndivided_of_none undivided' prev
  | cons c cs ih =>
    simp only [cons_append, isUndivided, Bool.and_eq_true, Bool.or_eq_true] at undivided ⊢
    refine ⟨undivided.1.imp_right fun next => ?_, ih undivided.2⟩
    rw [head?_append, eq_of_beq next]
    rfl

structure IsQuiet (t : Text) : Prop where
  unasked : '?' ∉ t
  undivided : isUndivided none t = true

theorem IsQuiet.append (quiet : IsQuiet left) (quiet' : IsQuiet right) : IsQuiet (left ++ right) :=
  ⟨fun asked => (mem_append.mp asked).elim quiet.unasked quiet'.unasked,
    isUndivided_append quiet.undivided quiet'.undivided⟩

theorem level_of_isNested {commas : Bool} (nested : IsNested commas t) : level t = 0 := by
  induction nested with
  | nil => rfl
  | char hp _ _ ih => rw [level, hp, ih, Int.add_zero]
  | @enclosed commas first last inside r pair _ _ within behind =>
    have back : bracketStep first + bracketStep last = 0 := by
      have all : ∀ pair ∈ [('(', ')'), ('[', ']'), ('{', '}')],
          bracketStep pair.1 + bracketStep pair.2 = 0 := by
        decide
      exact all _ pair
    rw [level, level_append, level]
    omega

theorem cutQuestion?_append (unasked : '?' ∉ t) (d : Int) (prev : Option Char) (r : Text) :
    cutQuestion? d prev (t ++ r) =
      (cutQuestion? (d + level t) (behind prev t) r).map (Prod.map (t ++ ·) id) := by
  induction t generalizing d prev with
  | nil =>
    rw [level, Int.add_zero]
    exact Option.map_id_apply.symm
  | cons c cs ih =>
    obtain ⟨first, further⟩ := not_or.mp (mt mem_cons.mpr unasked)
    have passed : cutQuestion? d prev (c :: (cs ++ r)) =
        (cutQuestion? (d + bracketStep c) (some c) (cs ++ r)).map (Prod.map (c :: ·) id) := by
      rw [cutQuestion?, if_neg (by simp [Ne.symm first])]
      rfl
    rw [cons_append, passed, ih further, Option.map_map, Int.add_assoc]
    rfl

theorem cutColon?_append (unasked : '?' ∉ t) (undivided : isUndivided prev t) (d : Int)
    (pending : Nat) (r : Text) :
    cutColon? d pending prev (t ++ r) =
      (cutColon? (d + level t) pending (behind prev t) r).map (Prod.map (t ++ ·) id) := by
  induction t generalizing d prev with
  | nil =>
    rw [level, Int.add_zero]
    exact Option.map_id_apply.symm
  | cons c cs ih =>
    obtain ⟨first, further⟩ := not_or.mp (mt mem_cons.mpr unasked)
    rw [isUndivided, Bool.and_eq_true] at undivided
    have whole : ¬(c = ':' && d = 0 && isDividing prev (cs ++ r).head?) := by
      intro divides
      simp only [Bool.and_eq_true, decide_eq_true_eq, isDividing, bne_iff_ne] at divides
      obtain ⟨⟨rfl, -⟩, ⟨pre, next⟩, -⟩ := divides
      have beside := undivided.1
      simp only [bne_self_eq_false, Bool.false_or, Bool.or_eq_true, beq_iff_eq] at beside
      refine beside.elim pre fun hit => next ?_
      rw [head?_append, hit]
      rfl
    have passed : cutColon? d pending prev (c :: (cs ++ r)) =
        (cutColon? (d + bracketStep c) pending (some c) (cs ++ r)).map (Prod.map (c :: ·) id) := by
      exact (cutColon?.eq_def ..).trans ((if_neg (by simp [Ne.symm first])).trans (if_neg whole))
    rw [cons_append, passed, ih further undivided.2, Option.map_map, Int.add_assoc]
    rfl

theorem any_head?_append {accepts : Char → Bool} (starts : left.head?.any accepts) (right : Text) :
    (left ++ right).head?.any accepts := by
  obtain ⟨first, hit, acc⟩ := (Option.any_eq_true _ _).mp starts
  rw [head?_append, hit]
  exact acc

theorem any_getLast?_append {accepts : Char → Bool} (ends : right.getLast?.any accepts)
    (left : Text) : (left ++ right).getLast?.any accepts := by
  obtain ⟨last, hit, acc⟩ := (Option.any_eq_true _ _).mp ends
  rw [getLast?_append, hit]
  exact acc

structure IsTrimmed (t : Text) : Prop where
  starts : t.head?.any isShown = true
  ends : t.getLast?.any isShown = true

theorem IsTrimmed.append (starts : left.head?.any isShown)
    (ends : right.getLast?.any isShown) : IsTrimmed (left ++ right) :=
  ⟨any_head?_append starts right, any_getLast?_append ends left⟩

theorem IsTrimmed.isEmpty (trimmed : IsTrimmed t) : t.isEmpty = false := by
  cases t with
  | nil => exact trimmed.starts.symm
  | cons => rfl

theorem IsTrimmed.trim {lead tail : Text} (trimmed : IsTrimmed t)
    (b : Text.isBlankText lead) (blank' : Text.isBlankText tail) :
    Text.trim (lead ++ (t ++ tail)) = t := by
  have hs {c : Char} {hit : Option Char} (any : hit.any isShown)
      (here : c ∈ hit) : isBlank c = false := by
    rw [Option.mem_def.mp here] at any
    exact Bool.not_eq_true' _ ▸ any
  have start : Text.trimStart t = t := Text.trimStart_eq_self fun _ => hs trimmed.starts
  have back : Text.trimStart t.reverse = t.reverse :=
    Text.trimStart_eq_self fun _ mem => hs trimmed.ends (head?_reverse ▸ mem)
  rw [Text.trim_append b blank', Text.trim, start, Text.trimEnd, ← Text.trimStart, back,
    reverse_reverse]

end Scanning

section Texts

theorem plain_of_isBare (bare : isBare commas t) :
    ∀ c ∈ t, bracketStep c = 0 ∧ c ≠ '?' ∧ (c = ',' → commas) := by
  intro c mem
  rw [isBare, Bool.and_eq_true] at bare
  have clear := all_eq_true.mp bare.1 c mem
  simp only [Bool.and_eq_true, Bool.or_eq_true, beq_iff_eq, bne_iff_ne] at clear
  exact ⟨clear.1.1, clear.1.2, fun comma => clear.2.resolve_left (absurd comma)⟩

theorem isNested_of_isBare (bare : isBare commas t) : IsNested commas t :=
  .of_all fun c mem => ⟨(plain_of_isBare bare c mem).1, (plain_of_isBare bare c mem).2.2⟩

theorem isQuiet_of_isBare (bare : isBare commas t) : IsQuiet t :=
  ⟨fun asked => (plain_of_isBare bare _ asked).2.1 rfl, ((Bool.and_eq_true ..).mp bare).2⟩

theorem unopened_of_isBare (bare : isBare commas t) : '(' ∉ t :=
  fun opens => absurd (plain_of_isBare bare _ opens).1 (by decide)

theorem isUndivided_of_notMem (whole : ':' ∉ t) (prev : Option Char) : isUndivided prev t := by
  induction t generalizing prev with
  | nil => rfl
  | cons c cs ih =>
    obtain ⟨first, others⟩ := not_or.mp (mt mem_cons.mpr whole)
    rw [isUndivided, ih others, bne_iff_ne.mpr (Ne.symm first)]
    rfl

theorem Name.notMem (n : Name) {c : Char} (ho : isNameChar c = false) : c ∉ n.text := by
  intro mem
  rw [all_eq_true.mp n.named c mem] at ho
  cases ho

theorem Name.isBare (n : Name) : isBare commas n.text := by
  have clear : ∀ c ∈ n.text, (bracketStep c == 0 && c != '?' && (c != ',' || commas)) := by
    intro c mem
    have hn := all_eq_true.mp n.named c mem
    have question : c ≠ '?' ∧ bracketStep c = 0 := neutral_of (by decide) hn
    have comma : c ≠ ',' ∧ bracketStep c = 0 := neutral_of (by decide) hn
    simp [question, comma]
  rw [Conditional.isBare, all_eq_true.mpr clear, isUndivided_of_notMem (n.notMem (by decide))]
  rfl

theorem isNested_comma (gap : Nat) : IsNested true (comma gap) :=
  .char rfl (fun _ => rfl) (.of_all fun _ mem => eq_of_mem_replicate mem ▸ ⟨rfl, nofun⟩)

theorem isNested_parens (within : IsNested commas inside) {commas' : Bool} :
    IsNested commas' (parens inside) :=
  .enclosed (by decide) within.weaken .nil

mutual

theorem Term.isNested : (t : Term commas) → IsNested commas t.text
  | .atom a => isNested_of_isBare a.bare
  | .empty n => (isNested_of_isBare n.isBare).append (isNested_parens (@IsNested.nil true))
  | .call n arg =>
    (isNested_of_isBare n.isBare).append (isNested_parens arg.isNested)
  | .calls n first gap r => (isNested_of_isBare n.isBare).append
      (isNested_parens (first.isNested.weaken.append ((isNested_comma gap).append r.isNested)))
  | .group content => isNested_parens content.isNested
  | .signed sign _ operand => (isNested_of_isBare sign.bare).append operand.isNested
  | .joined left sign right =>
    left.isNested.append ((isNested_of_isBare sign.bare).append right.isNested)

theorem Expr.isNested : (e : Expr commas) → IsNested commas e.text
  | .plain t => t.isNested
  | .choice cond yes no =>
    cond.isNested.append (.char rfl nofun (.char rfl nofun (.char rfl nofun
      (yes.isNested.append (.char rfl nofun (.char rfl nofun (.char rfl nofun
        no.isNested)))))))

theorem Args.isNested : (args : Args commas) → IsNested true args.text
  | .last t => t.isNested.weaken
  | .more t gap r => t.isNested.weaken.append ((isNested_comma gap).append r.isNested)

end

theorem Name.starts (n : Name) : n.text.head?.any isShown := by
  cases written : n.text with
  | nil => exact absurd written n.filled
  | cons c cs =>
    have hn : isNameChar c := all_eq_true.mp n.named c (by simp [written])
    cases hb : isBlank c with
    | true => exact absurd hn (by simp [Unicode.not_isNameChar_of_isBlank hb])
    | false => simp [isShown, hb]

theorem Name.isTrimmed (n : Name) (inside : Text) : IsTrimmed (n.text ++ parens inside) :=
  .append n.starts (any_getLast?_append rfl ('(' :: inside))

theorem Term.isTrimmed : (t : Term commas) → IsTrimmed t.text
  | .atom a => ⟨a.starts, a.ends⟩
  | .empty n => n.isTrimmed []
  | .call n arg => n.isTrimmed arg.text
  | .calls n .. => n.isTrimmed _
  | .group content => ⟨rfl, any_getLast?_append rfl ('(' :: content.text)⟩
  | .signed _ starts operand => .append starts operand.isTrimmed.ends
  | .joined left sign right =>
    .append left.isTrimmed.starts (any_getLast?_append right.isTrimmed.ends sign.text)

theorem Expr.isTrimmed : (e : Expr commas) → IsTrimmed e.text
  | .plain t => t.isTrimmed
  | .choice cond yes no => .append cond.isTrimmed.starts
      (any_getLast?_append (any_getLast?_append (any_getLast?_append no.isTrimmed.ends
        " : ".toList) yes.text) " ? ".toList)

theorem isQuiet_parens (quiet : IsQuiet inside) : IsQuiet (parens inside) := by
  have opens : IsQuiet ['('] := ⟨by decide, by decide⟩
  exact opens.append (quiet.append ⟨by decide, by decide⟩)

theorem isQuiet_comma (gap : Nat) : IsQuiet (comma gap) := by
  have all : ∀ c ∈ comma gap, c = ',' ∨ c = ' ' :=
    fun c mem => (mem_cons.mp mem).imp_right eq_of_mem_replicate
  exact ⟨fun asked => absurd (all _ asked) (by decide),
    isUndivided_of_notMem (fun mem => absurd (all _ mem) (by decide)) none⟩

theorem Name.isQuiet (n : Name) (quiet : IsQuiet inside) : IsQuiet (n.text ++ parens inside) :=
  (isQuiet_of_isBare (@isBare true n)).append (isQuiet_parens quiet)

/-- Whether nothing but the conditionals that are branches asks a question. -/
def Expr.IsSettled : Expr commas → Prop
  | .plain t => IsQuiet t.text
  | .choice condition yes no =>
    IsQuiet condition.text ∧ yes.IsSettled ∧ no.IsSettled

theorem Expr.IsSettled.isQuiet_toTerm : {e : Expr commas} → e.IsSettled → IsQuiet e.toTerm.text
  | .plain _, settled => settled
  | .choice .., settled => ifte.isQuiet (settled.1.append ((isQuiet_comma 1).append
      (settled.2.1.isQuiet_toTerm.append ((isQuiet_comma 1).append settled.2.2.isQuiet_toTerm))))

theorem Expr.IsSettled.isQuiet_enclosed : {e : Expr commas} → e.IsSettled → IsQuiet e.enclosed.text
  | .plain _, settled => isQuiet_parens settled
  | .choice .., settled => settled.isQuiet_toTerm

mutual

theorem Term.isQuiet_lowered : (t : Term commas) → IsQuiet t.lowered.text
  | .atom a => isQuiet_of_isBare a.bare
  | .empty n => n.isQuiet ⟨by decide, by decide⟩
  | .call n arg => n.isQuiet arg.isSettled_lowered.isQuiet_toTerm
  | .calls n first gap r => n.isQuiet
      (first.isQuiet_lowered.append ((isQuiet_comma gap).append r.isQuiet_lowered))
  | .group content => content.isSettled_lowered.isQuiet_enclosed
  | .signed sign _ operand => (isQuiet_of_isBare sign.bare).append operand.isQuiet_lowered
  | .joined left sign right => left.isQuiet_lowered.append
      ((isQuiet_of_isBare sign.bare).append right.isQuiet_lowered)

theorem Expr.isSettled_lowered : (e : Expr commas) → e.lowered.IsSettled
  | .plain t => t.isQuiet_lowered
  | .choice cond yes no =>
    ⟨cond.isQuiet_lowered, yes.isSettled_lowered, no.isSettled_lowered⟩

theorem Args.isQuiet_lowered : (args : Args commas) → IsQuiet args.lowered.text
  | .last t => t.isQuiet_lowered
  | .more t gap r =>
    t.isQuiet_lowered.append ((isQuiet_comma gap).append r.isQuiet_lowered)

end

end Texts

section Splitting

theorem map_spaced (c : Char) (cut : Option (Text × Text)) :
    ((cut.map (Prod.map (' ' :: ·) id)).map (Prod.map (c :: ·) id)).map (Prod.map (' ' :: ·) id) =
      cut.map (Prod.map ([' ', c, ' '] ++ ·) id) := by
  cases cut <;> rfl

theorem cutColon?_question (pending : Nat) (prev : Option Char) (r : Text) :
    cutColon? 0 pending prev (" ? ".toList ++ r) =
      (cutColon? 0 (pending + 1) (some ' ') r).map (Prod.map (" ? ".toList ++ ·) id) :=
  map_spaced '?' _

theorem cutColon?_colon (pending : Nat) (prev : Option Char) (r : Text) :
    cutColon? 0 (pending + 1) prev (" : ".toList ++ r) =
      (cutColon? 0 pending (some ' ') r).map (Prod.map (" : ".toList ++ ·) id) :=
  map_spaced ':' _

theorem Term.cutColon?_append {t : Term commas} (quiet : IsQuiet t.text) (pending : Nat)
    (prev : Option Char) (r : Text) : cutColon? 0 pending prev (t.text ++ r) =
      (cutColon? 0 pending (behind prev t.text) r).map (Prod.map (t.text ++ ·) id) := by
  rw [Conditional.cutColon?_append quiet.unasked (isUndivided_of_none quiet.undivided prev),
    level_of_isNested t.isNested, Int.add_zero]

theorem map_append_append (left right : Text) (cut : Option (Text × Text)) :
    (cut.map (Prod.map (right ++ ·) id)).map (Prod.map (left ++ ·) id) =
      cut.map (Prod.map (left ++ right ++ ·) id) := by
  cases cut <;> simp [Prod.map]

theorem Expr.IsSettled.cutColon?_append : {e : Expr commas} → e.IsSettled → (pending : Nat) →
    (prev : Option Char) → (r : Text) → cutColon? 0 pending prev (e.text ++ r) =
      (cutColon? 0 pending (behind prev e.text) r).map (Prod.map (e.text ++ ·) id)
  | .plain _, settled, pending, prev, r => Term.cutColon?_append settled pending prev r
  | .choice cond yes no, settled, pending, prev, r => by
    have last : behind prev (choice cond yes no).text =
        behind (some ' ') no.text := by
      rw [text, behind_append, behind_append, behind_append]
      rfl
    rw [last, text, append_assoc, append_assoc, append_assoc, append_assoc,
      Term.cutColon?_append settled.1, cutColon?_question, settled.2.1.cutColon?_append,
      cutColon?_colon, settled.2.2.cutColon?_append, map_append_append, map_append_append,
      map_append_append, map_append_append, append_assoc, append_assoc, append_assoc]

theorem split?_choice {cond : Term commas} {yes no : Expr commas}
    (settled : (Expr.choice cond yes no).IsSettled) :
    split? (Expr.choice cond yes no).text =
      some (cond.text, yes.text, no.text) := by
  have asked : cutQuestion? 0 none (Expr.choice cond yes no).text =
      some (cond.text ++ [' '], [' '] ++ (yes.text ++ (" : ".toList ++ no.text))) := by
    rw [Expr.text, cutQuestion?_append settled.1.unasked, level_of_isNested cond.isNested]
    rfl
  have divided : cutColon? 0 0 (some '?')
      ([' '] ++ (yes.text ++ (" : ".toList ++ no.text))) =
        some ([' '] ++ (yes.text ++ [' ']), [' '] ++ no.text) := by
    have first (t : Text) : cutColon? 0 0 (some '?') ([' '] ++ t) =
      (cutColon? 0 0 (some ' ') t).map (Prod.map ([' '] ++ ·) id) := rfl
    rw [first, settled.2.1.cutColon?_append]
    rfl
  have hb : Text.isBlankText [' '] := by decide
  have ends : Text.trim ([] ++ (cond.text ++ [' '])) = cond.text := cond.isTrimmed.trim rfl hb
  have around : Text.trim ([' '] ++ (yes.text ++ [' '])) = yes.text :=
    yes.isTrimmed.trim hb hb
  have starts : Text.trim ([' '] ++ (no.text ++ [])) = no.text :=
    no.isTrimmed.trim hb rfl
  rw [nil_append] at ends
  rw [append_nil] at starts
  simp only [split?, asked, divided, Option.bind_eq_bind, Option.bind_some, ends, around, starts,
    cond.isTrimmed.isEmpty, yes.isTrimmed.isEmpty, no.isTrimmed.isEmpty]
  rfl

theorem split?_of_isQuiet (quiet : IsQuiet t) : split? t = none := by
  have unasked := cutQuestion?_append quiet.unasked 0 none []
  rw [append_nil] at unasked
  rw [split?, unasked]
  rfl

def Expr.call? : Expr commas → Option Text
  | .plain _ => none
  | .choice condition yes no =>
    some (choice condition yes no).toTerm.text

theorem Expr.getD_call? (e : Expr commas) : e.call?.getD e.text = e.toTerm.text := by
  cases e <;> rfl

theorem Expr.IsSettled.callFrom?_text : {e : Expr commas} → e.IsSettled → {fuel : Nat} →
    e.text.length < fuel → callFrom? fuel e.text = e.call?
  | .plain t, settled, fuel + 1, _ => by
    rw [text, callFrom?, split?_of_isQuiet settled]
    rfl
  | .choice cond yes no, settled, fuel + 1, enough => by
    have inside : yes.text.length < fuel ∧ no.text.length < fuel := by
      have sign : " ? ".toList.length = 3 := rfl
      simp only [text, length_append] at enough
      omega
    rw [callFrom?, split?_choice settled, Option.map_some]
    simp only [settled.2.1.callFrom?_text inside.1, settled.2.2.callFrom?_text inside.2, getD_call?]
    simp [call?, toTerm, Term.text, Args.text, ifte, parens, comma]

theorem Expr.IsSettled.call?_text {e : Expr commas} (settled : e.IsSettled) :
    Conditional.call? e.text = e.call? :=
  settled.callFrom?_text (Nat.lt_succ_self _)

end Splitting

section Lowering

theorem lowerFrom_enough {n m : Nat} (enough : t.length ≤ n) (enough' : t.length ≤ m) :
    lowerFrom n prev t = lowerFrom m prev t := by
  induction n generalizing m prev t with
  | zero =>
    cases length_eq_zero_iff.mp (Nat.le_zero.mp enough)
    cases m <;> rfl
  | succ n ih =>
    cases t with
    | nil => cases m <;> rfl
    | cons c cs =>
      cases m with
      | zero => cases enough'
      | succ m =>
        rw [length_cons, Nat.add_le_add_iff_right] at enough enough'
        rw [lowerFrom, lowerFrom]
        split
        · next opens =>
          subst opens
          split
          · rfl
          · next inside rest cut =>
            have parts := congrArg length (eq_of_cutParens? cut)
            rw [length_append, length_cons] at parts
            have within : lowerFrom n none inside = lowerFrom m none inside :=
              ih (by omega) (by omega)
            have further : lowerFrom n (some ')') rest = lowerFrom m (some ')') rest :=
              ih (by omega) (by omega)
            rw [within, further]
        · rw [ih enough enough']

def lowerBehind (prev : Option Char) (t : Text) : Text :=
  lowerFrom t.length prev t

theorem lowerBehind_append (unopened : '(' ∉ t) (prev : Option Char) (rest : Text) :
    lowerBehind prev (t ++ rest) = t ++ lowerBehind (behind prev t) rest := by
  induction t generalizing prev with
  | nil => rfl
  | cons c cs ih =>
    obtain ⟨first, others⟩ := not_or.mp (mt mem_cons.mpr unopened)
    have step : lowerBehind prev (c :: (cs ++ rest)) = c :: lowerBehind (some c) (cs ++ rest) :=
      if_neg (Ne.symm first)
    rw [cons_append, step, ih others]
    rfl

theorem parens_append (inside r : Text) : parens inside ++ r = '(' :: (inside ++ ')' :: r) := by
  simp [parens]

theorem lowerBehind_parens (nested : IsNested commas inside) (prev : Option Char) (rest : Text) :
    lowerBehind prev (parens inside ++ rest) =
      group prev (lowerBehind none inside) ++ lowerBehind (some ')') rest := by
  rw [parens_append, lowerBehind, length_cons, lowerFrom, if_pos rfl,
    cutParens?_of_isNested nested.weaken]
  have long : (inside ++ ')' :: rest).length = inside.length + (rest.length + 1) := length_append
  simp only [lowerBehind]
  rw [lowerFrom_enough (by omega) (Nat.le_refl inside.length),
    lowerFrom_enough (by omega) (Nat.le_refl rest.length)]

/-- Whether a text is lowered to another one, wherever it does not follow a name. -/
def Lowers (t next : Text) : Prop :=
  ∀ (prev : Option Char) (rest : Text), prev.any isNameChar = false →
    ∃ after, lowerBehind prev (t ++ rest) = next ++ lowerBehind after rest

theorem Lowers.lowerBehind_none {next : Text} (lowers : Lowers t next) :
    lowerBehind none t = next := by
  obtain ⟨after, whole⟩ := lowers none [] rfl
  have empty : lowerBehind after [] = [] := rfl
  rwa [empty, append_nil, append_nil] at whole

theorem behind_of_getLast? {last : Char} (ends : t.getLast? = some last) (prev : Option Char) :
    behind prev t = some last := by
  obtain ⟨u, rfl⟩ := getLast?_eq_some_iff.mp ends
  rw [behind_append]
  rfl

structure IsSign (t : Text) : Prop where
  unopened : '(' ∉ t
  apart : t.getLast?.any (fun c => !isNameChar c) = true

theorem IsSign.lowers {sign next : Text} (isSign : IsSign sign) (lowers : Lowers t next) :
    (prev : Option Char) → (rest : Text) →
      ∃ after, lowerBehind prev (sign ++ t ++ rest) = sign ++ next ++ lowerBehind after rest := by
  intro prev rest
  obtain ⟨last, ends, ha⟩ := (Option.any_eq_true _ _).mp isSign.apart
  obtain ⟨after, whole⟩ := lowers (some last) rest (by simpa using ha)
  refine ⟨after, ?_⟩
  rw [append_assoc, lowerBehind_append isSign.unopened, behind_of_getLast? ends,
    whole, append_assoc]

theorem Lowers.append {left' right' sign : Text} (lowers : Lowers left left') (isSign : IsSign sign)
    (lowers' : Lowers right right') :
    Lowers (left ++ (sign ++ right)) (left' ++ (sign ++ right')) := by
  intro prev rest ha
  obtain ⟨hb, first⟩ := lowers prev (sign ++ right ++ rest) ha
  obtain ⟨after, second⟩ := isSign.lowers lowers' hb rest
  refine ⟨after, ?_⟩
  rw [append_assoc, first, second, ← append_assoc]

theorem Operator.isSign (sign : Operator commas) : IsSign sign.text :=
  ⟨unopened_of_isBare sign.bare, sign.apart⟩

theorem isSign_comma (gap : Nat) : IsSign (comma gap) := by
  constructor
  · intro opens
    rcases mem_cons.mp opens with first | later
    · cases first
    · cases eq_of_mem_replicate later
  · cases gap with
    | zero => rfl
    | succ gap =>
      rw [comma, replicate_succ', ← cons_append]
      exact any_getLast?_append (by decide) _

theorem group_of_isSettled {e : Expr commas} (settled : e.IsSettled)
    (ha : prev.any isNameChar = false) : group prev e.text = e.enclosed.text := by
  rw [group, settled.call?_text]
  cases e with
  | plain t => rfl
  | choice cond yes no => exact if_neg (by simp [ha])

theorem group_behind_name {e : Expr commas} (settled : e.IsSettled)
    (hn : prev.any isNameChar) : group prev e.text = parens e.toTerm.text := by
  rw [group, settled.call?_text]
  cases e with
  | plain t => rfl
  | choice cond yes no => exact if_pos hn

theorem group_of_isQuiet (quiet : IsQuiet t) (prev : Option Char) : group prev t = parens t := by
  rw [group, call?, callFrom?, split?_of_isQuiet quiet]
  rfl

theorem Name.lowers (n : Name) {next next' : Text} (nested : IsNested commas inside)
    (lowers : Lowers inside next) (kept : ∀ prev : Option Char, prev.any isNameChar →
      group prev next = parens next') :
    Lowers (n.text ++ parens inside) (n.text ++ parens next') := by
  intro prev rest _
  have last := getLast?_eq_some_getLast n.filled
  have hn : (some (n.text.getLast n.filled)).any isNameChar :=
    all_eq_true.mp n.named _ (getLast_mem n.filled)
  refine ⟨some ')', ?_⟩
  rw [append_assoc, lowerBehind_append (n.notMem (by decide)), lowerBehind_parens nested,
    behind_of_getLast? last, lowers.lowerBehind_none, kept _ hn, append_assoc]

mutual

theorem Term.lowers : (t : Term commas) → Lowers t.text t.lowered.text
  | .atom a => fun prev rest _ => ⟨_, lowerBehind_append (unopened_of_isBare a.bare) prev rest⟩
  | .empty n => n.lowers (@IsNested.nil true) (fun prev _ _ => ⟨prev, rfl⟩)
      fun prev _ => group_of_isQuiet ⟨by decide, rfl⟩ prev
  | .call n argument => n.lowers argument.isNested argument.lowers
      fun _ hn => group_behind_name argument.isSettled_lowered hn
  | .calls n first gap rest => n.lowers
      (first.isNested.weaken.append ((isNested_comma gap).append rest.isNested))
      (first.lowers.append (isSign_comma gap) rest.lowers)
      fun prev _ => group_of_isQuiet (first.isQuiet_lowered.append
        ((isQuiet_comma gap).append rest.isQuiet_lowered)) prev
  | .group content => by
    intro prev rest ha
    refine ⟨some ')', ?_⟩
    rw [Term.text, lowerBehind_parens content.isNested, content.lowers.lowerBehind_none,
      group_of_isSettled content.isSettled_lowered ha]
    rfl
  | .signed sign _ operand => fun prev rest _ => sign.isSign.lowers operand.lowers prev rest
  | .joined left sign right => left.lowers.append sign.isSign right.lowers

theorem Expr.lowers : (e : Expr commas) → Lowers e.text e.lowered.text
  | .plain t => t.lowers
  | .choice cond yes no => cond.lowers.append ⟨by decide, by decide⟩
      (yes.lowers.append ⟨by decide, by decide⟩ no.lowers)

theorem Args.lowers : (args : Args commas) → Lowers args.text args.lowered.text
  | .last t => t.lowers
  | .more t gap r => t.lowers.append (isSign_comma gap) r.lowers

end

/-- Lowering an expression gives the expression in which each conditional is a call. Parentheses
around a conditional are gone and those of a call are kept, however deep they are nested. -/
theorem lower_text (t : Term commas) : lower t.text = t.lowered.text :=
  t.lowers.lowerBehind_none

example : lower "f((a::b ? g(c ? x : y) : p ? q : (r)), -(u ? v : w))".toList =
    "f(IFTE(a::b, g(IFTE(c, x, y)), IFTE(p, q, (r))), -IFTE(u, v, w))".toList := by
  decide +kernel

end Lowering

open Term

/-- The name and the number of arguments of each call in a text, if `name` stands right before the
text. -/
def callsFrom (name : Text) : Text → List (Text × Nat)
  | [] => []
  | c :: cs =>
    if isNameChar c then callsFrom (name ++ [c]) cs
    else
      let found := if name = [] || c ≠ '(' then none
        else (cutParens? (c :: cs)).map fun cut => (name, (splitArguments cut.1).length)
      found.toList ++ callsFrom [] cs

def calls (t : Text) : List (Text × Nat) :=
  callsFrom [] t

def Args.count : Args commas → Nat
  | .last _ => 1
  | .more _ _ rest => rest.count + 1

mutual

def Term.found : Term commas → List (Text × Nat)
  | .atom _ => []
  | .empty name => [(name.text, 0)]
  | .call name argument => (name.text, 1) :: argument.found
  | .calls name first _ rest => (name.text, rest.count + 1) :: (first.found ++ rest.found)
  | .group content => content.found
  | .signed _ _ operand => operand.found
  | .joined left _ right => left.found ++ right.found

def Expr.found : Expr commas → List (Text × Nat)
  | .plain t => t.found
  | .choice condition yes no =>
    condition.found ++ (yes.found ++ no.found)

def Args.found : Args commas → List (Text × Nat)
  | .last t => t.found
  | .more t _ rest => t.found ++ rest.found

end

def Holds (t : Text) (found : List (Text × Nat)) : Prop :=
  ∀ rest, ∃ name, callsFrom [] (t ++ rest) = found ++ callsFrom name rest

theorem callsFrom_name (hn : t.all isNameChar) (n rest : Text) :
    callsFrom n (t ++ rest) = callsFrom (n ++ t) rest := by
  induction t generalizing n with
  | nil => rw [nil_append, append_nil]
  | cons c cs ih =>
    rw [all_cons, Bool.and_eq_true] at hn
    rw [cons_append, callsFrom, if_pos hn.1, ih hn.2, append_assoc]
    rfl

theorem exists_callsFrom (unopened : '(' ∉ t) (n : Text) :
    ∃ name', ∀ rest, callsFrom n (t ++ rest) = callsFrom name' rest := by
  induction t generalizing n with
  | nil => exact ⟨n, fun _ => rfl⟩
  | cons c cs ih =>
    obtain ⟨first, others⟩ := not_or.mp (mt mem_cons.mpr unopened)
    by_cases hn : isNameChar c
    · obtain ⟨after, same⟩ := ih others (n ++ [c])
      refine ⟨after, fun rest => ?_⟩
      rw [cons_append, callsFrom, if_pos hn, same]
    · obtain ⟨after, same⟩ := ih others []
      refine ⟨after, fun rest => ?_⟩
      rw [cons_append, callsFrom, if_neg hn]
      simp [Ne.symm first, same]

variable {sign inside : Text} {m : List (Text × Nat)}

theorem IsSign.callsFrom (isSign : IsSign sign) (n rest : Text) :
    callsFrom n (sign ++ rest) = callsFrom [] rest := by
  obtain ⟨last, ends, ha⟩ := (Option.any_eq_true _ _).mp isSign.apart
  obtain ⟨front, rfl⟩ := getLast?_eq_some_iff.mp ends
  obtain ⟨unopened, ending⟩ := not_or.mp (mt mem_append.mpr isSign.unopened)
  obtain ⟨after, same⟩ := exists_callsFrom unopened n
  rw [append_assoc, same, cons_append, Conditional.callsFrom, if_neg (by simpa using ha)]
  simp [Ne.symm (mt mem_singleton.mpr ending)]

theorem Holds.append {left right : Text} {found' : List (Text × Nat)}
    (P : Holds left m) (isSign : IsSign sign) (holds' : Holds right found') :
    Holds (left ++ (sign ++ right)) (m ++ found') := by
  intro rest
  obtain ⟨n, first⟩ := P (sign ++ right ++ rest)
  obtain ⟨after, second⟩ := holds' rest
  refine ⟨after, ?_⟩
  rw [append_assoc, first, append_assoc, isSign.callsFrom, second, append_assoc]

theorem Holds.parens (P : Holds inside m)
    (rest : Text) : callsFrom [] (inside ++ ')' :: rest) = m ++ callsFrom [] rest := by
  obtain ⟨n, within⟩ := P (')' :: rest)
  have closes : IsSign [')'] := ⟨by decide, by decide⟩
  rw [within, ← singleton_append, closes.callsFrom]

theorem Name.holds (n : Name) (nested : IsNested true inside) (P : Holds inside m) {count : Nat}
    (counted : (splitArguments inside).length = count) :
    Holds (n.text ++ parens inside) ((n.text, count) :: m) := by
  intro rest
  refine ⟨[], ?_⟩
  rw [append_assoc, callsFrom_name n.named, parens_append, callsFrom,
    if_neg (by decide), cutParens?_of_isNested nested, P.parens]
  simp [n.filled, counted]

theorem length_splitTopFrom_append (nested : IsNested false t) (r : Text) :
    (splitTopFrom ',' 0 (t ++ r)).length = (splitTopFrom ',' 0 r).length := by
  rw [nested.splitTopFrom_append Int.le_rfl nofun, length_modifyHead]

theorem length_splitTopFrom_comma (gap : Nat) (r : Text) :
    (splitTopFrom ',' 0 (comma gap ++ r)).length = (splitTopFrom ',' 0 r).length + 1 := by
  have spaces : IsNested false (replicate gap ' ') :=
    .of_all fun _ mem => eq_of_mem_replicate mem ▸ ⟨rfl, nofun⟩
  have divided : (splitTopFrom ',' 0 (comma gap ++ r)).length =
      (splitTopFrom ',' 0 (replicate gap ' ' ++ r)).length + 1 := rfl
  rw [divided, length_splitTopFrom_append spaces]

theorem Args.length_splitTopFrom : (args : Args false) →
    (splitTopFrom ',' 0 args.text).length = args.count
  | .last t => by
    have whole := length_splitTopFrom_append t.isNested []
    rwa [append_nil] at whole
  | .more t gap r => by
    rw [text, length_splitTopFrom_append t.isNested, length_splitTopFrom_comma,
      r.length_splitTopFrom]
    rfl

theorem splitArguments_of_starts (starts : t.head?.any isShown) :
    splitArguments t = splitTopFrom ',' 0 t := by
  obtain ⟨c, m, clear⟩ := (Option.any_eq_true _ _).mp starts
  obtain ⟨cs, rfl⟩ := head?_eq_some_iff.mp m
  rw [isShown, Bool.not_eq_true'] at clear
  rw [splitArguments_eq, Text.isBlankText, all_cons, clear]
  rfl

mutual

theorem Term.holds : (t : Term false) → Holds t.text t.found
  | .atom a => fun rest => by
    obtain ⟨n, same⟩ := exists_callsFrom (unopened_of_isBare a.bare) []
    exact ⟨n, same rest⟩
  | .empty n => n.holds .nil (fun _ => ⟨[], rfl⟩) rfl
  | .call n argument => by
    have whole := length_splitTopFrom_append argument.isNested []
    rw [append_nil, ← splitArguments_of_starts argument.isTrimmed.starts] at whole
    exact n.holds argument.isNested.weaken argument.holds whole
  | .calls n first gap rest => by
    have nested := first.isNested.weaken.append ((isNested_comma gap).append rest.isNested)
    refine n.holds nested (first.holds.append (isSign_comma gap) rest.holds) ?_
    rw [splitArguments_of_starts (any_head?_append first.isTrimmed.starts _),
      length_splitTopFrom_append first.isNested,
      length_splitTopFrom_comma, rest.length_splitTopFrom]
  | .group content => fun rest => by
    refine ⟨[], ?_⟩
    rw [text, parens_append, callsFrom, if_neg (by decide), content.holds.parens]
    rfl
  | .signed sign _ operand => fun rest => by
    rw [text, append_assoc, sign.isSign.callsFrom]
    exact operand.holds rest
  | .joined left sign right => left.holds.append sign.isSign right.holds

theorem Expr.holds : (e : Expr false) → Holds e.text e.found
  | .plain t => t.holds
  | .choice cond yes no => cond.holds.append ⟨by decide, by decide⟩
      (yes.holds.append ⟨by decide, by decide⟩ no.holds)

theorem Args.holds : (args : Args false) → Holds args.text args.found
  | .last t => t.holds
  | .more t gap r => t.holds.append (isSign_comma gap) r.holds

end

def others (found : List (Text × Nat)) : List (Text × Nat) :=
  found.filter (· ≠ ("IFTE".toList, 3))

theorem others_append (left right : List (Text × Nat)) :
    others (left ++ right) = others left ++ others right :=
  filter_append left right

theorem Expr.others_toTerm (e : Expr commas) : others e.toTerm.found = others e.found := by
  cases e with
  | plain => rfl
  | choice cond yes no =>
    have written : others (choice cond yes no).toTerm.found =
      others (cond.found ++ (yes.toTerm.found ++ no.toTerm.found)) := rfl
    simp only [written, found, others_append, yes.others_toTerm, no.others_toTerm]

theorem Expr.others_enclosed (e : Expr commas) : others e.enclosed.found = others e.found := by
  cases e with
  | plain t => rfl
  | choice cond yes no => exact others_toTerm _

theorem Args.count_lowered (args : Args commas) : args.lowered.count = args.count := by
  cases args with
  | last => rfl
  | more _ _ r => exact congrArg (· + 1) r.count_lowered

mutual

theorem Term.others_lowered : (t : Term commas) → others t.lowered.found = others t.found
  | .atom _ => rfl
  | .empty _ => rfl
  | .call n arg => by
    rw [lowered, found, found, Expr.found, ← singleton_append, others_append,
      arg.lowered.others_toTerm, arg.others_lowered, ← others_append, singleton_append]
  | .calls n first _ r => by
    rw [lowered, found, found, r.count_lowered, ← singleton_append,
      others_append, others_append, first.others_lowered, r.others_lowered, ← others_append,
      ← others_append, singleton_append]
  | .group content => content.lowered.others_enclosed.trans content.others_lowered
  | .signed _ _ operand => operand.others_lowered
  | .joined left _ right => by
    rw [lowered, found, found, others_append, others_append, left.others_lowered,
      right.others_lowered]

theorem Expr.others_lowered : (e : Expr commas) → others e.lowered.found = others e.found
  | .plain t => t.others_lowered
  | .choice cond yes no => by
    simp only [Expr.lowered, Expr.found, others_append, cond.others_lowered,
      yes.others_lowered, no.others_lowered]

theorem Args.others_lowered : (args : Args commas) → others args.lowered.found = others args.found
  | .last t => t.others_lowered
  | .more t _ r => by
    rw [Args.lowered, Args.found, Args.found, others_append, others_append, t.others_lowered,
      r.others_lowered]

end

theorem Term.calls_text (t : Term false) : Conditional.calls t.text = t.found := by
  obtain ⟨n, whole⟩ := t.holds []
  have missed : callsFrom n [] = [] := rfl
  rwa [missed, append_nil, append_nil] at whole

/-- Where a conditional is an argument, it is the only one of its call. Then every call that a
conditional becomes has three arguments and the other calls are those of the source. -/
theorem calls_lower (t : Term false)
    (own : ∀ call ∈ calls t.text, call.1 = "IFTE".toList → call.2 = 3) :
    (∀ call ∈ calls (lower t.text), call.1 = "IFTE".toList → call.2 = 3) ∧
      (calls (lower t.text)).filter (·.1 ≠ "IFTE".toList) =
        (calls t.text).filter (·.1 ≠ "IFTE".toList) := by
  have lowered : lower t.text = t.lowered.text := t.lowers.lowerBehind_none
  have same : others (calls (lower t.text)) = others (calls t.text) := by
    rw [lowered, t.calls_text, t.lowered.calls_text, t.others_lowered]
  constructor
  · intro call listed named
    by_contra other
    have kept : call ∈ others (calls (lower t.text)) :=
      mem_filter.mpr ⟨listed, by simpa using fun same => other (congrArg Prod.snd same)⟩
    rw [same] at kept
    exact other (own call (mem_filter.mp kept).1 named)
  · have narrower (found : List (Text × Nat)) : (others found).filter (·.1 ≠ "IFTE".toList) =
        found.filter (·.1 ≠ "IFTE".toList) := by
      rw [others, filter_filter]
      refine filter_congr fun call _ => ?_
      by_cases named : call.1 = "IFTE".toList
      · simp [named]
      · have other : call ≠ ("IFTE".toList, 3) := fun same => named (congrArg Prod.fst same)
        rw [decide_eq_true named, decide_eq_true other]
        rfl
    rw [← narrower, same, narrower]

theorem calls_lower_nested :
    (∀ call ∈ calls (lower "f((a ? g() : b), h(c ? x : y))".toList),
        call.1 = "IFTE".toList → call.2 = 3) ∧
      (calls (lower "f((a ? g() : b), h(c ? x : y))".toList)).filter (·.1 ≠ "IFTE".toList) =
        (calls "f((a ? g() : b), h(c ? x : y))".toList).filter (·.1 ≠ "IFTE".toList) :=
  calls_lower
    (.calls { text := "f".toList }
      (.group (.choice (.atom { text := "a".toList }) (.plain (.empty { text := "g".toList }))
        (.plain (.atom { text := "b".toList })))) 1
      (.last (.call { text := "h".toList } (.choice (.atom { text := "c".toList })
        (.plain (.atom { text := "x".toList })) (.plain (.atom { text := "y".toList }))))))
    (by decide +kernel)

/-- A conditional next to another argument takes that into its condition. -/
theorem calls_lower_several :
    calls "f(x, c ? 1 : 2)".toList = [("f".toList, 2)] ∧
      calls (lower "f(x, c ? 1 : 2)".toList) = [("f".toList, 1), ("IFTE".toList, 4)] := by
  decide +kernel

end PrimePlus.Construct.Conditional
