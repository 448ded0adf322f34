/-
# Evaluation of tokens in postfix order

Tokens are read from the left over a stack of values: a variable puts its value on top, an
operator takes its operands from there and puts back its result.  The list need not come from
an expression; the first token that cannot be applied decides the failure, and at the end
exactly one value must be left.
-/
import TwoLevel.Assignment
import TwoLevel.Error

namespace TwoLevel
namespace Postfix

/-- The stack after an operator: its right operand is on top. -/
def applyOperator (o : Operator) (stack : List Bool) : Except Error (List Bool) :=
  match o.isUnary, stack with
  | true, r :: rest => .ok (o.apply false r :: rest)
  | false, r :: l :: rest => .ok (o.apply l r :: rest)
  | _, _ => .error (.parse (.missingOperand o.symbol))

/-- The stack after one token. -/
def step (a : Assignment) (stack : List Bool) : Token → Except Error (List Bool)
  | .var c =>
    match a.get? c with
    | some v => .ok (v :: stack)
    | none => .error (.unassignedVariable c)
  | .op o => applyOperator o stack
  | t => .error (.parse (.invalidToken t.text))

/-- The stack after a list of tokens. -/
def run (a : Assignment) : List Bool → List Token → Except Error (List Bool)
  | stack, [] => .ok stack
  | stack, t :: ts =>
    match step a stack t with
    | .ok next => run a next ts
    | .error e => .error e

/-- The one value that is left at the end. -/
def result : List Bool → Except Error Bool
  | [] => .error (.parse .emptyExpression)
  | [v] => .ok v
  | stack => .error (.parse (.danglingOperands stack.length))

/-- The value of tokens in postfix order. -/
def evaluate (a : Assignment) (tokens : List Token) : Except Error Bool :=
  match run a [] tokens with
  | .ok stack => result stack
  | .error e => .error e

/-- What follows a list of tokens starts from the stack that the list leaves. -/
theorem run_append (a : Assignment) (stack : List Bool) (ts us : List Token) :
    run a stack (ts ++ us) =
      match run a stack ts with
      | .ok next => run a next us
      | .error e => .error e := by
  induction ts generalizing stack with
  | nil => rfl
  | cons t ts ih =>
    rw [List.cons_append, run, run]
    cases step a stack t with
    | ok next => exact ih next
    | error e => rfl

end Postfix
end TwoLevel
