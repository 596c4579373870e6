import PrimePlus.Expression.Postfix

/-!
The value of an infix expression. Its tokens leave operators that bind tightly enough.
-/

namespace PrimePlus.Expression

open List

inductive Tree where
  | number (value : Float)
  | negate (operand : Tree)
  | binary (op : Operator) (left right : Tree)

namespace Tree

def value : Tree → Float
  | .number value => value
  | .negate operand => -operand.value
  | .binary op left right => (op.eval left.value right.value).1

/-- The expressions inside an expression, itself the last: operands before operators, left operands
before right ones. -/
def nodes : Tree → List Tree
  | .number value => [.number value]
  | .negate operand => operand.nodes ++ [.negate operand]
  | .binary op left right => left.nodes ++ right.nodes ++ [.binary op left right]

def dividesByZero : Tree → Bool
  | .binary .div _ right | .binary .mod _ right => right.value == 0.0
  | _ => false

def faults (t : Tree) : List Fault :=
  (t.nodes.filter dividesByZero).map fun _ => .divisionByZero

def instructions : Tree → List Instruction
  | .number value => [.push value]
  | .negate operand => operand.instructions ++ [.negate]
  | .binary op left right => left.instructions ++ right.instructions ++ [.apply op]

theorem eval_snd (op : Operator) (left right : Tree) :
    (op.eval left.value right.value).2 =
      if (binary op left right).dividesByZero then [.divisionByZero] else [] := by
  cases op with
  | div | mod =>
    simp only [Operator.eval, dividesByZero]
    by_cases zero : right.value == 0.0 <;> simp [zero]
  | add | sub | mul | pow => rfl

theorem faults_negate (operand : Tree) : (negate operand).faults = operand.faults := by
  simp [faults, nodes, dividesByZero]

theorem faults_binary (op : Operator) (left right : Tree) :
    (binary op left right).faults =
      left.faults ++ right.faults ++ (op.eval left.value right.value).2 := by
  rw [eval_snd]
  simp only [faults, nodes, filter_append, map_append]
  by_cases zero : (binary op left right).dividesByZero <;> simp [zero]

theorem execute_instructions (t : Tree) (stack : List Float) (recorded : List Fault)
    (rest : List Instruction) :
    execute stack recorded (t.instructions ++ rest) =
      execute (t.value :: stack) (recorded ++ t.faults) rest := by
  induction t generalizing stack recorded rest with
  | number value => simp [instructions, execute, faults, nodes, dividesByZero, Tree.value]
  | negate operand ih =>
    rw [instructions, append_assoc, ih, faults_negate]
    rfl
  | binary op left right ihLeft ihRight =>
    rw [instructions, append_assoc, append_assoc, ihLeft, ihRight, faults_binary,
      ← append_assoc, ← append_assoc]
    rfl

end Tree

/-- How tightly a negation binds: more tightly than every operator. -/
def negationPrecedence : Nat := 4

theorem Operator.precedence_lt_negation (op : Operator) : op.precedence < negationPrecedence := by
  cases op <;> decide

/-- The tokens that spell an expression at a place where operators of at least a precedence may
stand. Around an operator that does not bind tightly enough there have to be parentheses; around
anything else there may be. -/
inductive Renders : Nat → Tree → List Token → Prop where
  | number {least : Nat} (value : Float) : Renders least (.number value) [.number value]
  | negate {least : Nat} {operand : Tree} {tokens : List Token} :
      Renders negationPrecedence operand tokens →
      Renders least (.negate operand) (.negate :: tokens)
  | binary {least : Nat} {op : Operator} {left right : Tree} {leftTokens rightTokens : List Token} :
      least ≤ op.precedence → Renders op.precedence left leftTokens →
      Renders (op.precedence + 1) right rightTokens →
      Renders least (.binary op left right) (leftTokens ++ .operator op :: rightTokens)
  | parens {least : Nat} {t : Tree} {tokens : List Token} :
      Renders 1 t tokens → Renders least t (.opening :: tokens ++ [.closing])

def Waiting.Binds (least : Nat) : Waiting → Prop
  | .operator op => least ≤ op.precedence
  | .negate => True
  | .paren => False

theorem Waiting.Binds.of_negation {waiting : Waiting} (binds : waiting.Binds negationPrecedence)
    (least : Nat) : waiting.Binds least := by
  cases waiting with
  | operator op => exact absurd binds (Nat.not_le_of_lt op.precedence_lt_negation)
  | negate => trivial
  | paren => exact binds

theorem Waiting.Binds.mono {waiting : Waiting} {least tighter : Nat} (binds : waiting.Binds tighter)
    (le : least ≤ tighter) : waiting.Binds least := by
  cases waiting with
  | operator op => exact Nat.le_trans le binds
  | negate => trivial
  | paren => exact binds

def Holds (least : Nat) (stack : List Waiting) : Prop :=
  ∀ op : Operator, least ≤ op.precedence → ∀ output, releaseFor op output stack = ⟨output, stack⟩

namespace Holds

theorem nil (least : Nat) : Holds least [] :=
  fun _ _ _ => rfl

theorem paren (least : Nat) (stack : List Waiting) : Holds least (.paren :: stack) :=
  fun _ _ _ => rfl

theorem negation (stack : List Waiting) : Holds negationPrecedence stack :=
  fun op tight _ => absurd tight (Nat.not_le_of_lt op.precedence_lt_negation)

theorem operator (op : Operator) (stack : List Waiting) :
    Holds (op.precedence + 1) (.operator op :: stack) := by
  intro o tighter output
  rw [releaseFor, if_neg (Nat.not_le_of_lt tighter)]

theorem mono {least tighter : Nat} {stack : List Waiting} (P : Holds least stack)
    (le : least ≤ tighter) : Holds tighter stack :=
  fun op tight => P op (Nat.le_trans le tight)

end Holds

section Release

variable {output released : List Instruction} {waiting : List Waiting}

theorem releaseAll?_append (output : List Instruction) (waiting below : List Waiting) :
    releaseAll? output (waiting ++ below) =
      (releaseAll? output waiting).bind fun output => releaseAll? output below := by
  induction waiting generalizing output with
  | nil => rfl
  | cons top r ih =>
    cases top with
    | operator op | negate => exact ih _
    | paren => rfl

theorem releaseFor_append (op : Operator) (stack : List Waiting)
    (binds : ∀ top ∈ waiting, top.Binds op.precedence)
    (all : releaseAll? output waiting = some released) :
    releaseFor op output (waiting ++ stack) = releaseFor op released stack := by
  induction waiting generalizing output with
  | nil =>
    cases all
    rfl
  | cons top r ih =>
    have first := binds top mem_cons_self
    have others : ∀ top ∈ r, top.Binds op.precedence := (forall_mem_cons.mp binds).2
    cases top with
    | operator o =>
      have tight : op.precedence ≤ o.precedence := first
      rw [cons_append, releaseFor, if_pos tight]
      exact ih others all
    | negate => exact ih others all
    | paren => exact first.elim

theorem releaseParen?_append (stack : List Waiting)
    (all : releaseAll? output waiting = some released) :
    releaseParen? output (waiting ++ .paren :: stack) = some ⟨released, stack⟩ := by
  induction waiting generalizing output with
  | nil =>
    cases all
    rfl
  | cons top r ih =>
    cases top with
    | operator op | negate => exact ih all
    | paren => cases all

end Release

/-- The tokens of a tree leave operators waiting above the stack that was there. They bind at least
as tightly as the place of the tree asks for, and releasing them completes the instructions of the
tree. -/
def Spelled (expression : Text) (least : Nat) (t : Tree) (tokens : List Token)
    (output : List Instruction) (stack : List Waiting) : Prop :=
  ∃ (next : List Instruction) (waiting : List Waiting),
    (∀ top ∈ waiting, top.Binds least) ∧
    releaseAll? next waiting = some (t.instructions.reverse ++ output) ∧
    ∀ rest, postfixFrom expression ⟨output, stack⟩ (tokens ++ rest) =
      postfixFrom expression ⟨next, waiting ++ stack⟩ rest

/-- Reordering the tokens of a tree above a stack that none of its operators disturbs. -/
theorem Renders.spelt {least : Nat} {t : Tree} {tokens : List Token}
    (renders : Renders least t tokens) (expr : Text) (output : List Instruction)
    (stack : List Waiting) (P : Holds least stack) :
    Spelled expr least t tokens output stack := by
  induction renders generalizing output stack with
  | number value =>
    refine ⟨.push value :: output, [], by simp, rfl, ?_⟩
    intro r
    rfl
  | @negate least operand tokens _ ih =>
    obtain ⟨next, waiting, binds, all, reads⟩ := ih output (.negate :: stack) (.negation _)
    refine ⟨next, waiting ++ [.negate], ?_, ?_, ?_⟩
    · intro top mem
      rcases mem_append.mp mem with inner | last
      · exact (binds top inner).of_negation least
      · rw [mem_singleton.mp last]
        trivial
    · rw [releaseAll?_append, all]
      simp [releaseAll?, Tree.instructions]
    · intro r
      rw [append_assoc]
      exact reads r
  | @binary least op left right leftTokens rightTokens tight _ _ ihLeft ihRight =>
    obtain ⟨afterLeft, leftWaiting, leftBinds, leftAll, leftReads⟩ :=
      ihLeft output stack (P.mono tight)
    obtain ⟨next, waiting, binds, all, reads⟩ :=
      ihRight (left.instructions.reverse ++ output) (.operator op :: stack) (.operator op stack)
    refine ⟨next, waiting ++ [.operator op], ?_, ?_, ?_⟩
    · intro top mem
      rcases mem_append.mp mem with inner | last
      · exact (binds top inner).mono (Nat.le_succ_of_le tight)
      · rw [mem_singleton.mp last]
        exact tight
    · rw [releaseAll?_append, all]
      simp [releaseAll?, Tree.instructions]
    · intro r
      -- the operator completes the left operand and disturbs nothing below it
      have released : releaseFor op afterLeft (leftWaiting ++ stack) =
          ⟨left.instructions.reverse ++ output, stack⟩ := by
        rw [releaseFor_append op stack leftBinds leftAll, P op tight]
      rw [append_assoc, leftReads, cons_append, postfixFrom, Reordering.step]
      dsimp only
      rw [released, reads, append_assoc]
      rfl
  | @parens least t tokens _ ih =>
    obtain ⟨next, waiting, -, all, reads⟩ := ih output (.paren :: stack) (.paren _ _)
    refine ⟨t.instructions.reverse ++ output, [], by simp, rfl, ?_⟩
    intro r
    rw [cons_append, cons_append, append_assoc, postfixFrom, Reordering.step]
    dsimp only
    rw [reads, singleton_append, postfixFrom, Reordering.step, releaseParen?_append stack all]
    rfl

theorem Renders.postfixFrom_eq {t : Tree} {tokens : List Token} (renders : Renders 1 t tokens)
    (expr : Text) : postfixFrom expr {} tokens = .ok t.instructions := by
  obtain ⟨next, waiting, -, all, reads⟩ := renders.spelt expr [] [] (.nil 1)
  have whole := reads []
  rw [append_nil] at whole
  rw [whole, postfixFrom]
  simp [all]

theorem Renders.any_isNumber {least : Nat} {t : Tree} {tokens : List Token}
    (renders : Renders least t tokens) : tokens.any Token.isNumber := by
  induction renders with
  | number value => rfl
  | negate _ ih => simpa [Token.isNumber] using ih
  | binary _ _ _ ihLeft _ => rw [any_append, ihLeft, Bool.true_or]
  | parens _ ih => simpa [Token.isNumber] using ih

/-- Every spelling of a tree, with whatever further parentheses, is reordered without a fault and
evaluated to the value of the tree and its divisions by zero in order. -/
theorem evaluates_to_tree (t : Tree) (spelling : List Token) (renders : Renders 1 t spelling) :
    (∀ expression, ∃ code, postfixFrom expression {} spelling = .ok code ∧
      execute [] [] code = some ([t.value], t.faults)) ∧
      ∀ expression, tokens expression = .ok spelling →
        evaluate expression = .ok (t.value, t.faults) := by
  have computed : execute [] [] t.instructions = some ([t.value], t.faults) := by
    have run := t.execute_instructions [] [] []
    rw [append_nil] at run
    exact run
  refine ⟨fun expression => ⟨_, renders.postfixFrom_eq expression, computed⟩, ?_⟩
  intro expression read
  simp only [evaluate, read, bind, Except.bind, renders.any_isNumber, renders.postfixFrom_eq,
    computed]
  rfl

/-- A power of a negation divided by a difference that is zero. -/
theorem evaluates_to_tree_negated_power :
    let circle := Tree.number piValue
    let t := Tree.binary .div (.binary .pow (.negate circle) (.negate (.negate circle)))
      (.binary .sub circle circle)
    let spelling : List Token :=
      [.negate, .number piValue, .operator .pow, .negate, .negate, .number piValue, .operator .div,
        .opening, .number piValue, .operator .sub, .number piValue, .closing]
    Renders 1 t spelling ∧ tokens "-π^--π/(π-π)".toList = .ok spelling ∧
      evaluate "-π^--π/(π-π)".toList = .ok (t.value, t.faults) := by
  intro circle t spelling
  have number {least : Nat} : Renders least circle [.number piValue] := .number piValue
  have power :
      Renders (Operator.precedence .div) _ ([.negate, .number piValue] ++ .operator .pow :: _) :=
    .binary (by decide) (.negate number) (.negate (.negate number))
  have difference : Renders (Operator.precedence .div + 1) _
      (.opening :: ([.number piValue] ++ .operator .sub :: _) ++ _) :=
    .parens (.binary (by decide) number number)
  have renders : Renders 1 t spelling := .binary (by decide) power difference
  have read : tokens "-π^--π/(π-π)".toList = .ok spelling := rfl
  exact ⟨renders, read, (evaluates_to_tree t spelling renders).2 _ read⟩

end PrimePlus.Expression
