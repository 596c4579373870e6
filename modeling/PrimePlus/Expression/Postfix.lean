import PrimePlus.Expression.Token

/-!
Evaluation of arithmetic expressions, by way of postfix order. Division by zero gives zero.
-/

namespace PrimePlus.Expression

inductive Instruction where
  | push (value : Float)
  | apply (op : Operator)
  | negate

inductive Waiting where
  | operator (op : Operator)
  | negate
  | paren
  deriving Repr, DecidableEq

structure Reordering where
  output : List Instruction := []
  stack : List Waiting := []

/-- Instructions for the waiting operators that bind at least as tightly as `op`, and the stack
that remains. A negation binds more tightly than every operator. -/
def releaseFor (op : Operator) : List Instruction → List Waiting → Reordering
  | output, .negate :: stack => releaseFor op (.negate :: output) stack
  | output, .operator other :: stack =>
    if op.precedence ≤ other.precedence then releaseFor op (.apply other :: output) stack
    else ⟨output, .operator other :: stack⟩
  | output, stack => ⟨output, stack⟩

/-- Instructions for what waits above the innermost parenthesis, which is removed; nothing if there
is no parenthesis. -/
def releaseParen? : List Instruction → List Waiting → Option Reordering
  | _, [] => none
  | output, .paren :: stack => some ⟨output, stack⟩
  | output, .negate :: stack => releaseParen? (.negate :: output) stack
  | output, .operator op :: stack => releaseParen? (.apply op :: output) stack

/-- Instructions for everything that still waits; nothing if a parenthesis is among it. -/
def releaseAll? : List Instruction → List Waiting → Option (List Instruction)
  | output, [] => some output
  | _, .paren :: _ => none
  | output, .negate :: stack => releaseAll? (.negate :: output) stack
  | output, .operator op :: stack => releaseAll? (.apply op :: output) stack

/-- The reordering after one more token; nothing if a parenthesis is closed that was not opened. -/
def Reordering.step (state : Reordering) : Token → Option Reordering
  | .number value => some { state with output := .push value :: state.output }
  | .negate => some { state with stack := .negate :: state.stack }
  | .opening => some { state with stack := .paren :: state.stack }
  | .operator op =>
    let released := releaseFor op state.output state.stack
    some { released with stack := .operator op :: released.stack }
  | .closing => releaseParen? state.output state.stack

def postfixFrom (expression : Text) (state : Reordering) :
    List Token → Except Fault (List Instruction)
  | [] =>
    match releaseAll? state.output state.stack with
    | some output => .ok output.reverse
    | none => .error (.missingClose expression)
  | token :: rest =>
    match state.step token with
    | some state => postfixFrom expression state rest
    | none => .error (.missingOpen expression)

/-- The value of an operation, and whether it divides by zero. A remainder is brought to the sign of
zero or above. -/
def Operator.eval (op : Operator) (x y : Float) : Float × List Fault :=
  match op with
  | .add => (x + y, [])
  | .sub => (x - y, [])
  | .mul => (x * y, [])
  | .div => if y == 0.0 then (0.0, [.divisionByZero]) else (x / y, [])
  | .mod =>
    if y == 0.0 then (0.0, [.divisionByZero])
    else
      let rest := Numeral.Binary64.remainder x y
      (if rest < 0.0 then rest + y.abs else rest, [])
  | .pow => (Float.pow x y, [])

/-- The stack and the faults after a sequence of instructions; nothing if an operand is missing. -/
def execute : List Float → List Fault → List Instruction → Option (List Float × List Fault)
  | stack, faults, [] => some (stack, faults)
  | stack, faults, .push value :: rest => execute (value :: stack) faults rest
  | x :: stack, faults, .negate :: rest => execute (-x :: stack) faults rest
  | y :: x :: stack, faults, .apply op :: rest =>
    let result := op.eval x y
    execute (result.1 :: stack) (faults ++ result.2) rest
  | _, _, _ => none

def Token.isNumber : Token → Bool
  | .number _ => true
  | _ => false

def evaluate (expression : Text) : Except Fault (Float × List Fault) := do
  let tokens ← tokens expression
  if !tokens.any Token.isNumber then throw (.malformed expression)
  let instructions ← postfixFrom expression {} tokens
  match execute [] [] instructions with
  | some ([value], faults) => return (value, faults)
  | _ => throw (.malformed expression)

end PrimePlus.Expression
