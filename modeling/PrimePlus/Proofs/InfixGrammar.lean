import Mathlib.Data.List.Chain
import PrimePlus.Proofs.InfixValue

/-!
Which sequences of tokens are evaluated: those with one number more than operators.
-/

namespace PrimePlus.Expression

open List Token

variable {token : Token}

section Parentheses

def Token.isOpening : Token → Bool
  | .opening => true
  | _ => false

def Token.isClosing : Token → Bool
  | .closing => true
  | _ => false

def openings (spelling : List Token) : Nat :=
  spelling.countP isOpening

def closings (spelling : List Token) : Nat :=
  spelling.countP isClosing

/-- The number of parentheses that are open behind tokens, when some are open in front of them;
nothing if one is closed that is not open. -/
def openAfter? : Nat → List Token → Option Nat
  | n, [] => some n
  | n, .opening :: rest => openAfter? (n + 1) rest
  | 0, .closing :: _ => none
  | n + 1, .closing :: rest => openAfter? n rest
  | n, _ :: rest => openAfter? n rest

def StaysOpen (n : Nat) (spelling : List Token) : Prop :=
  ∀ front, front <+: spelling → closings front ≤ n + openings front

theorem staysOpen_cons {n : Nat} {r : List Token} : StaysOpen n (token :: r) ↔
      ∀ u, u <+: r → closings (token :: u) ≤ n + openings (token :: u) := by
  refine ⟨fun stays u ha => stays _ (cons_prefix_cons.mpr ⟨rfl, ha⟩), ?_⟩
  intro stays u ha
  cases u with
  | nil => simp [closings]
  | cons first u =>
    obtain ⟨rfl, hv⟩ := cons_prefix_cons.mp ha
    exact stays u hv

theorem openAfter?_eq_some_iff (n m : Nat) (spelling : List Token) :
    openAfter? n spelling = some m ↔
      StaysOpen n spelling ∧ closings spelling + m = n + openings spelling := by
  induction spelling generalizing n with
  | nil =>
    have stays : StaysOpen n [] := by
      intro u ha
      rw [prefix_nil.mp ha]
      exact Nat.zero_le _
    simp only [openAfter?, Option.some.injEq, closings, openings, countP_nil, stays, true_and]
    omega
  | cons token r ih =>
    rw [staysOpen_cons]
    cases token with
    | number _ | operator _ | negate =>
      simp only [openAfter?, ih, closings, openings, StaysOpen,
        countP_cons_of_neg, isClosing, isOpening, Bool.false_eq_true,
        not_false_eq_true]
    | opening =>
      simp only [openAfter?, ih, closings, openings, StaysOpen, countP_cons, isClosing,
        isOpening, Bool.false_eq_true, if_false, if_true, Nat.add_zero]
      simp only [Nat.add_assoc, Nat.add_comm 1]
    | closing =>
      cases n with
      | zero =>
        simp only [openAfter?, reduceCtorEq, false_iff, not_and]
        intro stays
        have empty := stays [] nil_prefix
        simp [closings, openings, isClosing, isOpening] at empty
      | succ n =>
        simp only [openAfter?, ih, closings, openings, StaysOpen, countP_cons, isClosing,
          isOpening, Bool.false_eq_true, if_false, if_true]
        refine and_congr (forall_congr' fun u => imp_congr_right fun _ => ?_) ?_ <;> omega

def parens (stack : List Waiting) : Nat :=
  stack.count .paren

theorem parens_releaseFor (op : Operator) (output : List Instruction) (stack : List Waiting) :
    parens (releaseFor op output stack).stack = parens stack := by
  induction stack generalizing output with
  | nil => rfl
  | cons top r ih =>
    cases top with
    | negate => simpa [releaseFor, parens] using ih (.negate :: output)
    | paren => rfl
    | operator o =>
      rw [releaseFor]
      split
      · simpa [parens] using ih (.apply o :: output)
      · rfl

theorem releaseParen?_cases (output : List Instruction) (stack : List Waiting) :
    (parens stack = 0 ∧ releaseParen? output stack = none) ∨
      ∃ next, releaseParen? output stack = some next ∧ parens next.stack + 1 = parens stack := by
  induction stack generalizing output with
  | nil => exact .inl ⟨rfl, rfl⟩
  | cons top r ih =>
    cases top with
    | negate => simpa [releaseParen?, parens] using ih (.negate :: output)
    | operator op => simpa [releaseParen?, parens] using ih (.apply op :: output)
    | paren => exact .inr ⟨⟨output, r⟩, rfl, by simp [parens]⟩

theorem releaseAll?_cases (output : List Instruction) (stack : List Waiting) :
    (parens stack = 0 ∧ ∃ released, releaseAll? output stack = some released) ∨
      (parens stack ≠ 0 ∧ releaseAll? output stack = none) := by
  induction stack generalizing output with
  | nil => exact .inl ⟨rfl, output, rfl⟩
  | cons top r ih =>
    cases top with
    | negate => exact ih (.negate :: output)
    | operator op => exact ih (.apply op :: output)
    | paren => exact .inr ⟨by simp [parens], rfl⟩

theorem postfixFrom_cases (expr : Text) (state : Reordering) (spelling : List Token) :
    (openAfter? (parens state.stack) spelling = none ∧
      postfixFrom expr state spelling = .error (.missingOpen expr)) ∨
    (openAfter? (parens state.stack) spelling = some 0 ∧
      ∃ code, postfixFrom expr state spelling = .ok code) ∨
    ∃ n, openAfter? (parens state.stack) spelling = some (n + 1) ∧
      postfixFrom expr state spelling = .error (.missingClose expr) := by
  induction spelling generalizing state with
  | nil =>
    rw [postfixFrom]
    rcases releaseAll?_cases state.output state.stack with ⟨absent, output, all⟩ | ⟨ne, kept⟩
    · rw [absent, all]
      exact .inr (.inl ⟨rfl, _, rfl⟩)
    · obtain ⟨n, count⟩ := Nat.exists_eq_succ_of_ne_zero ne
      rw [count, kept]
      exact .inr (.inr ⟨n, rfl, rfl⟩)
  | cons token r ih =>
    rw [postfixFrom]
    cases token with
    | number value => exact ih { state with output := .push value :: state.output }
    | negate => exact ih { state with stack := .negate :: state.stack }
    | opening =>
      have later := ih { state with stack := .paren :: state.stack }
      rw [parens, count_cons_self] at later
      exact later
    | operator op =>
      have later := ih { releaseFor op state.output state.stack with
        stack := .operator op :: (releaseFor op state.output state.stack).stack }
      have count : parens (.operator op :: (releaseFor op state.output state.stack).stack) =
          parens state.stack := parens_releaseFor op state.output state.stack
      rw [count] at later
      exact later
    | closing =>
      rw [Reordering.step]
      rcases releaseParen?_cases state.output state.stack with ⟨absent, missed⟩ | ⟨next, hit, count⟩
      · rw [absent, missed]
        exact .inl ⟨rfl, rfl⟩
      · rw [← count, hit]
        exact ih next

end Parentheses

section Faults

variable {expr : Text} {spelling : List Token}

theorem openAfter?_eq_none_iff (n : Nat) (spelling : List Token) :
    openAfter? n spelling = none ↔ ¬StaysOpen n spelling := by
  constructor
  · intro missed stays
    have whole := stays spelling (prefix_refl spelling)
    have hit := (openAfter?_eq_some_iff n (n + openings spelling - closings spelling) spelling).mpr
      ⟨stays, by omega⟩
    rw [missed] at hit
    cases hit
  · intro falls
    cases count : openAfter? n spelling with
    | none => rfl
    | some m => exact absurd ((openAfter?_eq_some_iff n m spelling).mp count).1 falls

theorem evaluate_of_tokens (read : tokens expr = .ok spelling) (number : spelling.any isNumber) :
    (∃ fault, postfixFrom expr {} spelling = .error fault ∧
      evaluate expr = .error fault) ∨
    ∃ code, postfixFrom expr {} spelling = .ok code ∧
      ((∃ value faults, execute [] [] code = some ([value], faults) ∧
          evaluate expr = .ok (value, faults)) ∨
        ((∀ value faults, execute [] [] code ≠ some ([value], faults)) ∧
          evaluate expr = .error (.malformed expr))) := by
  simp only [evaluate, read, number, bind, Except.bind]
  cases reordered : postfixFrom expr {} spelling with
  | error fault => exact .inl ⟨fault, rfl, rfl⟩
  | ok code =>
    refine .inr ⟨code, rfl, ?_⟩
    cases computed : execute [] [] code with
    | none => exact .inr ⟨by simp, by simp only [computed]; rfl⟩
    | some fin =>
      obtain ⟨_ | ⟨value, _ | ⟨_, _⟩⟩, faults⟩ := fin
      · exact .inr ⟨by simp, by simp only [computed]; rfl⟩
      · exact .inl ⟨value, faults, rfl, by simp only [computed]; rfl⟩
      · exact .inr ⟨by simp, by simp only [computed]; rfl⟩

/-- A closing parenthesis is missed or an opening one exactly where the parentheses of the tokens do
not balance; tokens whose parentheses balance are evaluated or are malformed. -/
theorem parenthesis_faults_exact (expression : Text) (spelling : List Token)
    (read : tokens expression = .ok spelling) (number : spelling.any isNumber = true) :
    (evaluate expression = .error (.missingOpen expression) ↔
      ∃ front, front <+: spelling ∧ openings front < closings front) ∧
    (evaluate expression = .error (.missingClose expression) ↔
      (∀ front, front <+: spelling → closings front ≤ openings front) ∧
        closings spelling < openings spelling) ∧
    ((∀ front, front <+: spelling → closings front ≤ openings front) ∧
        closings spelling = openings spelling →
      (∃ result, evaluate expression = .ok result) ∨
        evaluate expression = .error (.malformed expression)) := by
  have stays : StaysOpen 0 spelling ↔
      ∀ front, front <+: spelling → closings front ≤ openings front := by
    simp only [StaysOpen, Nat.zero_add]
  have falls : ¬StaysOpen 0 spelling ↔ ∃ front, front <+: spelling ∧
      openings front < closings front := by
    simp only [stays, not_forall, Nat.not_le, exists_prop]
  rw [← stays, ← falls]
  have reorders := postfixFrom_cases expression {} spelling
  rcases reorders with ⟨below, failed⟩ | ⟨zero, code, done⟩ | ⟨m, opened, failed⟩
  · have falls := (openAfter?_eq_none_iff 0 spelling).mp below
    rcases evaluate_of_tokens read number with ⟨fault, same, result⟩ | ⟨code, done, -⟩
    · cases failed.symm.trans same
      simp [result, falls]
    · cases failed.symm.trans done
  · obtain ⟨above, total⟩ := (openAfter?_eq_some_iff 0 0 spelling).mp zero
    have balanced : ¬closings spelling < openings spelling := by omega
    rcases evaluate_of_tokens read number with
      ⟨fault, failed, -⟩ | ⟨_, -, ⟨value, faults, -, result⟩ | ⟨-, result⟩⟩
    · cases done.symm.trans failed
    · simp [result, above, balanced]
    · simp [result, above, balanced]
  · obtain ⟨above, total⟩ := (openAfter?_eq_some_iff 0 (m + 1) spelling).mp opened
    have more : closings spelling < openings spelling := by omega
    have other : ¬closings spelling = openings spelling := by omega
    rcases evaluate_of_tokens read number with ⟨fault, same, result⟩ | ⟨code, done, -⟩
    · cases failed.symm.trans same
      simp [result, above, more, other]
    · cases failed.symm.trans done

/-- A closing parenthesis too many in front of an opening one that is never closed. -/
theorem parenthesis_faults_exact_backwards :
    let spelling : List Token := [.number piValue, .closing, .operator .mul, .opening]
    tokens "π)*(".toList = .ok spelling ∧ spelling.any isNumber = true ∧
      evaluate "π)*(".toList = .error (.missingOpen "π)*(".toList) := by
  intro spelling
  have read : tokens "π)*(".toList = .ok spelling := rfl
  refine ⟨read, rfl, (parenthesis_faults_exact _ spelling read rfl).1.mpr ?_⟩
  exact ⟨[.number piValue, .closing], ⟨[.operator .mul, .opening], rfl⟩, by decide⟩

end Faults

section Grammar

inductive Form where
  | operand
  | expression

/-- The infix grammar: an operand is a number, a negated operand or an expression between
parentheses, and an expression is a sequence of operands with operators between them. -/
inductive Derives : Form → List Token → Prop where
  | number (value : Float) : Derives .operand [.number value]
  | negate {spelling : List Token} :
      Derives .operand spelling → Derives .operand (.negate :: spelling)
  | parens {spelling : List Token} :
      Derives .expression spelling → Derives .operand (.opening :: spelling ++ [.closing])
  | operand {spelling : List Token} : Derives .operand spelling → Derives .expression spelling
  | binary {left right : List Token} (op : Operator) :
      Derives .expression left → Derives .operand right →
      Derives .expression (left ++ .operator op :: right)

def Token.startsOperand : Token → Bool
  | .number _ | .negate | .opening => true
  | _ => false

def Token.endsOperand : Token → Bool
  | .number _ | .closing => true
  | _ => false

def AreApart (spelling : List Token) : Prop :=
  spelling.IsChain fun first second => first.endsOperand = true → second.startsOperand = false

variable {spelling left right : List Token}

section Precedence

theorem Operator.one_le_precedence (op : Operator) : 1 ≤ op.precedence := by
  cases op <;> decide

/-- An operator with an operand behind it goes to the right end of a tree, above the operators that
bind at least as tightly. -/
theorem Renders.exists_insert {least : Nat} {t operand : Tree} {op : Operator}
    (renders : Renders least t left) (tight : least ≤ op.precedence)
    (hv : Renders (op.precedence + 1) operand right) :
    ∃ whole, Renders least whole (left ++ .operator op :: right) := by
  induction renders with
  | number value => exact ⟨_, .binary tight (.number value) hv⟩
  | negate inner _ => exact ⟨_, .binary tight (.negate inner) hv⟩
  | parens inner _ => exact ⟨_, .binary tight (.parens inner) hv⟩
  | @binary least o first second firstTokens secondTokens loose hu back _ ih =>
    by_cases binds : op.precedence ≤ o.precedence
    · exact ⟨_, .binary tight (.binary binds hu back) hv⟩
    · obtain ⟨whole, inner⟩ := ih (Nat.lt_of_not_le binds)
      rw [append_assoc]
      exact ⟨_, .binary loose hu inner⟩

theorem Derives.exists_renders {form : Form} (derived : Derives form spelling) :
    ∃ t, Renders 1 t spelling ∧ (form = .operand → ∀ least, Renders least t spelling) := by
  induction derived with
  | number value => exact ⟨_, .number value, fun _ _ => .number value⟩
  | negate _ ih =>
    obtain ⟨t, -, renders⟩ := ih
    exact ⟨_, .negate (renders rfl _), fun _ _ => .negate (renders rfl _)⟩
  | parens _ ih =>
    obtain ⟨t, renders, -⟩ := ih
    exact ⟨_, .parens renders, fun _ _ => .parens renders⟩
  | operand _ ih =>
    obtain ⟨t, renders, -⟩ := ih
    exact ⟨t, renders, nofun⟩
  | binary op _ _ ihLeft ihRight =>
    obtain ⟨t, hu, -⟩ := ihLeft
    obtain ⟨operand, -, hv⟩ := ihRight
    obtain ⟨whole, renders⟩ := hu.exists_insert (op.one_le_precedence) (hv rfl _)
    exact ⟨whole, renders, nofun⟩

end Precedence

section Counting

/-- What a token does to the number of operands: a number is one, and an operator makes one of
two. -/
def Token.gain : Token → Int
  | .number _ => 1
  | .operator _ => -1
  | .negate | .opening | .closing => 0

def Instruction.gain : Instruction → Int
  | .push _ => 1
  | .apply _ => -1
  | .negate => 0

def Waiting.gain : Waiting → Int
  | .operator _ => -1
  | .negate | .paren => 0

def total {α : Type} (gain : α → Int) : List α → Int
  | [] => 0
  | first :: rest => gain first + total gain rest

@[simp] theorem total_append {α : Type} (gain : α → Int) (left right : List α) :
    total gain (left ++ right) = total gain left + total gain right := by
  induction left with
  | nil => simp [total]
  | cons first r ih => simp only [cons_append, total, ih, Int.add_assoc]

theorem total_reverse {α : Type} (gain : α → Int) (list : List α) :
    total gain list.reverse = total gain list := by
  induction list with
  | nil => rfl
  | cons first r ih => simp only [reverse_cons, total_append, total]; omega

/-- What was written and what waits, taken together. -/
def Reordering.gain (state : Reordering) : Int :=
  total Instruction.gain state.output + total Waiting.gain state.stack

theorem gain_negate (output : List Instruction) (stack : List Waiting) :
    Reordering.gain ⟨.negate :: output, stack⟩ = Reordering.gain ⟨output, .negate :: stack⟩ := by
  simp [Reordering.gain, total, Instruction.gain, Waiting.gain]

theorem gain_operator (op : Operator) (output : List Instruction) (stack : List Waiting) :
    Reordering.gain ⟨.apply op :: output, stack⟩ =
      Reordering.gain ⟨output, .operator op :: stack⟩ := by
  simp only [Reordering.gain, total, Instruction.gain, Waiting.gain]
  omega

theorem gain_releaseFor (op : Operator) (output : List Instruction) (stack : List Waiting) :
    (releaseFor op output stack).gain = Reordering.gain ⟨output, stack⟩ := by
  induction stack generalizing output with
  | nil => rfl
  | cons top r ih =>
    cases top with
    | paren => rfl
    | negate => exact (ih _).trans (gain_negate output r)
    | operator o =>
      rw [releaseFor]
      split
      · exact (ih _).trans (gain_operator o output r)
      · rfl

variable {output : List Instruction} {stack : List Waiting} {code : List Instruction}
variable {state : Reordering}

theorem gain_of_releaseParen? {next : Reordering}
    (released : releaseParen? output stack = some next) :
    next.gain = Reordering.gain ⟨output, stack⟩ := by
  induction stack generalizing output with
  | nil => cases released
  | cons top r ih =>
    cases top with
    | paren =>
      cases released
      simp [Reordering.gain, total, Waiting.gain]
    | negate => exact (ih released).trans (gain_negate output r)
    | operator op => exact (ih released).trans (gain_operator op output r)

theorem gain_of_releaseAll? (released : releaseAll? output stack = some code) :
    total Instruction.gain code = Reordering.gain ⟨output, stack⟩ := by
  induction stack generalizing output with
  | nil =>
    cases released
    simp [Reordering.gain, total]
  | cons top r ih =>
    cases top with
    | paren => cases released
    | negate => exact (ih released).trans (gain_negate output r)
    | operator op => exact (ih released).trans (gain_operator op output r)

theorem Reordering.gain_step {next : Reordering} (read : state.step token = some next) :
    next.gain = state.gain + token.gain := by
  cases token with
  | closing => rw [gain_of_releaseParen? read, Token.gain, Int.add_zero]
  | operator op =>
    cases read
    have released := gain_releaseFor op state.output state.stack
    simp only [gain, total, Token.gain, Waiting.gain] at released ⊢
    omega
  | number _ | negate | opening =>
    cases read
    simp only [gain, total, Token.gain, Instruction.gain, Waiting.gain]
    omega

theorem gain_of_postfixFrom {expr : Text} (reordered : postfixFrom expr state spelling = .ok code) :
    total Instruction.gain code = state.gain + total gain spelling := by
  induction spelling generalizing state with
  | nil =>
    rw [postfixFrom] at reordered
    split at reordered
    · next output all =>
      cases reordered
      rw [total_reverse, gain_of_releaseAll? all, total, Int.add_zero]
    · cases reordered
  | cons token r ih =>
    rw [postfixFrom] at reordered
    split at reordered
    · next next read => rw [ih reordered, Reordering.gain_step read, total, Int.add_assoc]
    · cases reordered

theorem length_of_execute {stack fin : List Float} {faults recorded : List Fault}
    (computed : execute stack faults code = some (fin, recorded)) :
    (fin.length : Int) = stack.length + total Instruction.gain code := by
  fun_induction execute stack faults code with
  | case1 stack faults =>
    cases computed
    simp [total]
  | case2 stack faults value r ih =>
    rw [ih computed, length_cons, total, Instruction.gain]
    omega
  | case3 x stack faults r ih =>
    rw [ih computed, length_cons, length_cons, total, Instruction.gain]
    omega
  | case4 y x stack faults op r result ih =>
    rw [ih computed, length_cons, length_cons, length_cons, total, Instruction.gain]
    omega
  | case5 => cases computed

end Counting

section Balance

theorem openAfter?_append (n : Nat) (left right : List Token) :
    openAfter? n (left ++ right) = (openAfter? n left).bind fun m => openAfter? m right := by
  induction left generalizing n with
  | nil => rfl
  | cons token r ih =>
    cases token with
    | closing =>
      cases n with
      | zero => rfl
      | succ n => exact ih n
    | opening => exact ih (n + 1)
    | number _ | operator _ | negate => exact ih n

theorem openAfter?_add {n m : Nat} (count : openAfter? n spelling = some m) (k : Nat) :
    openAfter? (n + k) spelling = some (m + k) := by
  obtain ⟨stays, total⟩ := (openAfter?_eq_some_iff n m spelling).mp count
  refine (openAfter?_eq_some_iff _ _ spelling).mpr ⟨fun u ha => ?_, by omega⟩
  have := stays u ha
  omega

/-- Where fewer parentheses are open in the end, the innermost of them is closed on the way. -/
theorem exists_closing {n m : Nat} (count : openAfter? (n + 1) spelling = some m) (fewer : m ≤ n) :
    ∃ a r, spelling = a ++ .closing :: r ∧ openAfter? 0 a = some 0 ∧ openAfter? n r = some m := by
  induction size : spelling.length using Nat.strongRecOn generalizing spelling n with
  | ind size ih =>
    cases spelling with
    | nil =>
      rw [openAfter?, Option.some.injEq] at count
      omega
    | cons token later =>
      rw [length_cons] at size
      cases token with
      | closing => exact ⟨[], later, rfl, rfl, count⟩
      | number _ | operator _ | negate =>
        have hv : openAfter? (n + 1) later = some m := count
        obtain ⟨a, r, rfl, inner, outer⟩ := ih later.length (by omega) hv fewer rfl
        exact ⟨_ :: a, r, rfl, inner, outer⟩
      | opening =>
        -- the parenthesis that opens here is closed first
        have deeper : openAfter? (n + 1 + 1) later = some m := count
        obtain ⟨x, hv, rfl, inner, outer⟩ :=
          ih later.length (by omega) deeper (Nat.le_succ_of_le fewer) rfl
        rw [length_append, length_cons] at size
        obtain ⟨second, r, rfl, next, last⟩ := ih hv.length (by omega) outer fewer rfl
        refine ⟨.opening :: x ++ .closing :: second, r, by simp, ?_, last⟩
        rw [cons_append, openAfter?, openAfter?_append, openAfter?_add inner 1]
        exact next

theorem Derives.join (op : Operator) (hu : Derives .expression left)
    (back : Derives .expression right) : Derives .expression (left ++ .operator op :: right) := by
  generalize form : Form.expression = f at back
  induction back with
  | number | negate | parens => cases form
  | operand single => exact .binary op hu single
  | @binary first last o _ single ih _ =>
    have longer := ih rfl
    rw [← cons_append, ← append_assoc]
    exact .binary o longer single

theorem Derives.negated (derived : Derives .expression spelling) :
    Derives .expression (.negate :: spelling) := by
  generalize form : Form.expression = f at derived
  induction derived with
  | number | negate | parens => cases form
  | operand single => exact .operand (.negate single)
  | binary op _ single ih _ => exact .binary op (ih rfl) single

theorem areApart_append (ha : AreApart (left ++ right)) : AreApart left ∧ AreApart right :=
  ⟨(isChain_append.mp ha).1, (isChain_append.mp ha).2.1⟩

theorem AreApart.head? (ha : AreApart (token :: spelling)) (ends : token.endsOperand) :
    spelling.head?.any startsOperand = false := by
  cases spelling with
  | nil => rfl
  | cons next r => simpa using (isChain_cons_cons.mp ha).1 ends

/-- Tokens whose operands stand apart have at most one operand that no operator takes up. Where
there is one, they are an expression; where there is none although no operand stands at the front,
they go on from an expression. -/
theorem derives_of_balanced (ha : AreApart spelling) (balanced : openAfter? 0 spelling = some 0) :
    total gain spelling ≤ 1 ∧ (total gain spelling = 1 → Derives .expression spelling) ∧
      (spelling.head?.any startsOperand = false → total gain spelling ≤ 0 ∧
        (total gain spelling = 0 →
          ∀ left, Derives .expression left → Derives .expression (left ++ spelling))) := by
  induction size : spelling.length using Nat.strongRecOn generalizing spelling with
  | ind size ih =>
    cases spelling with
    | nil => simp [total]
    | cons token rest =>
      rw [length_cons] at size
      have later : AreApart rest := (@areApart_append [token] rest ha).2
      cases token with
      | closing => cases balanced
      | number value =>
        obtain ⟨-, -, goes⟩ := ih rest.length (by omega) later balanced rfl
        obtain ⟨few, behind⟩ := goes (ha.head? rfl)
        rw [total, gain]
        exact ⟨by omega, fun one => behind (by omega) _ (.operand (.number value)), nofun⟩
      | negate =>
        obtain ⟨few, whole, -⟩ := ih rest.length (by omega) later balanced rfl
        rw [total, gain]
        exact ⟨by omega, fun one => (whole (by omega)).negated, nofun⟩
      | operator op =>
        obtain ⟨few, whole, -⟩ := ih rest.length (by omega) later balanced rfl
        rw [total, gain]
        refine ⟨by omega, fun one => by omega, fun _ => ⟨by omega, fun zero left front => ?_⟩⟩
        exact front.join op (whole (by omega))
      | opening =>
        obtain ⟨inside, behind, rfl, inner, outer⟩ := exists_closing balanced (Nat.le_refl 0)
        rw [length_append, length_cons] at size
        obtain ⟨front, back⟩ := areApart_append later
        obtain ⟨few, whole, -⟩ := ih inside.length (by omega) front inner rfl
        obtain ⟨-, -, goes⟩ := ih behind.length (by omega)
          (@areApart_append [.closing] behind back).2 outer rfl
        obtain ⟨less, follows⟩ := goes (back.head? rfl)
        rw [total, total_append, total, gain, gain]
        refine ⟨by omega, fun one => ?_, nofun⟩
        have group := Derives.operand (.parens (whole (by omega)))
        simpa using follows (by omega) _ group

theorem Derives.areApart {form : Form} (derived : Derives form spelling) : AreApart spelling := by
  induction derived with
  | number => exact isChain_singleton _
  | negate _ ih => exact isChain_cons.mpr ⟨nofun, ih⟩
  | parens _ ih =>
    refine isChain_cons.mpr ⟨nofun, isChain_append.mpr ⟨ih, isChain_singleton _, ?_⟩⟩
    rintro _ _ _ ⟨⟩ _
    rfl
  | operand _ ih => exact ih
  | binary op _ _ hu back =>
    refine isChain_append.mpr ⟨hu, isChain_cons.mpr ⟨nofun, back⟩, ?_⟩
    rintro _ _ _ ⟨⟩ _
    rfl

end Balance

/-- The tokens of an expression are an infix expression exactly where it is evaluated without a
fault and no operand starts right behind another one. -/
theorem infix_iff_evaluates_apart (expression : Text) (spelling : List Token)
    (read : tokens expression = .ok spelling) :
    Derives .expression spelling ↔
      (∃ result, evaluate expression = .ok result) ∧ AreApart spelling := by
  constructor
  · intro derived
    refine ⟨?_, derived.areApart⟩
    obtain ⟨t, renders, -⟩ := derived.exists_renders
    have code := renders.postfixFrom_eq expression
    have computed := t.execute_instructions [] [] []
    rw [append_nil] at computed
    rcases evaluate_of_tokens read renders.any_isNumber with
      ⟨fault, failed, -⟩ | ⟨_, done, ⟨value, faults, -, result⟩ | ⟨short, -⟩⟩
    · cases code.symm.trans failed
    · exact ⟨_, result⟩
    · cases code.symm.trans done
      exact absurd computed (short _ _)
  · rintro ⟨⟨result, evaluated⟩, apart⟩
    have number : spelling.any isNumber = true := by
      cases any : spelling.any isNumber with
      | true => rfl
      | false =>
        simp only [evaluate, read, any, bind, Except.bind] at evaluated
        cases evaluated
    rcases evaluate_of_tokens read number with
      ⟨fault, -, failed⟩ | ⟨code, done, ⟨value, faults, computed, -⟩ | ⟨-, failed⟩⟩
    · cases evaluated.symm.trans failed
    · have one := length_of_execute computed
      have empty : Reordering.gain {} = 0 := rfl
      rw [gain_of_postfixFrom done, empty] at one
      rcases postfixFrom_cases expression {} spelling with ⟨-, fails⟩ |
        ⟨balanced, -⟩ | ⟨_, -, fails⟩
      · cases done.symm.trans fails
      · exact (derives_of_balanced apart balanced).2.1 (by simpa using one.symm)
      · cases done.symm.trans fails
    · cases evaluated.symm.trans failed

/-- A sum in parentheses, negated and raised to a power. -/
theorem infix_iff_evaluates_apart_negated :
    let spelling : List Token := [.negate, .opening, .number piValue, .operator .add,
      .number piValue, .closing, .operator .pow, .number piValue]
    tokens "-(π+π)^π".toList = .ok spelling ∧ AreApart spelling ∧
      ∃ result, evaluate "-(π+π)^π".toList = .ok result := by
  intro spelling
  have read : tokens "-(π+π)^π".toList = .ok spelling := rfl
  have sum : Derives .expression ([.number piValue] ++ .operator .add :: [.number piValue]) :=
    .binary .add (.operand (.number piValue)) (.number piValue)
  have derived : Derives .expression
      (.negate :: (.opening :: _ ++ [.closing]) ++ .operator .pow :: [.number piValue]) :=
    .binary .pow (.operand (.negate (.parens sum))) (.number piValue)
  obtain ⟨evaluated, apart⟩ := (infix_iff_evaluates_apart _ spelling read).mp derived
  exact ⟨read, apart, evaluated⟩

/-- Two operands with their operator behind them are evaluated, although they are no infix
expression. -/
theorem postfix_sum_is_evaluated :
    let spelling : List Token := [.number piValue, .number piValue, .operator .add]
    tokens "π π +".toList = .ok spelling ∧ ¬Derives .expression spelling ∧
      evaluate "π π +".toList = .ok (piValue + piValue, []) := by
  refine ⟨rfl, fun derived => ?_, rfl⟩
  have first := (isChain_cons_cons.mp derived.areApart).1 rfl
  cases first

end Grammar

end PrimePlus.Expression
