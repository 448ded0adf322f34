/-
# From infix to postfix order

An expression is written with each binary operator between its operands; it is evaluated from
the order in which each operator follows its operands.  Operators wait on a stack until the
next one, a closing parenthesis or the end lets them go.

The first token that cannot be placed decides the failure: a word without meaning, or a closing
parenthesis without partner.  An opening parenthesis without partner is found at the end.
-/
import TwoLevel.Error
import TwoLevel.Token

namespace TwoLevel
namespace Postfix

/-- What waits on the stack. -/
inductive Waiting where
  | paren
  | op (operator : Operator)
  deriving DecidableEq, Repr, Inhabited

/-! ## 1. Letting operators go -/

/-- The operators on top of the stack that an operator yields to, and what stays. -/
def releaseFor (o : Operator) : List Waiting → List Operator × List Waiting
  | .op top :: stack =>
    if o.yieldsTo top then
      let (out, rest) := releaseFor o stack
      (top :: out, rest)
    else ([], .op top :: stack)
  | stack => ([], stack)

/-- The operators above the last open parenthesis, and what is below it. -/
def releaseToParen? : List Waiting → Option (List Operator × List Waiting)
  | [] => none
  | .paren :: stack => some ([], stack)
  | .op o :: stack => (releaseToParen? stack).map fun (out, rest) => (o :: out, rest)

/-- All operators on the stack, if no parenthesis is open. -/
def releaseAll? : List Waiting → Option (List Operator)
  | [] => some []
  | .paren :: _ => none
  | .op o :: stack => (releaseAll? stack).map (o :: ·)

/-! ## 2. The conversion -/

/-- The tokens of a list in postfix order, under a stack of waiting operators. -/
def convert : List Waiting → List Token → Except ParseError (List Token)
  | stack, [] =>
    match releaseAll? stack with
    | some out => .ok (out.map .op)
    | none => .error .mismatchedParentheses
  | stack, .var c :: ts => (convert stack ts).map (.var c :: ·)
  | stack, .op o :: ts =>
    let (out, rest) := releaseFor o stack
    (convert (.op o :: rest) ts).map (out.map .op ++ ·)
  | stack, .leftParen :: ts => convert (.paren :: stack) ts
  | stack, .rightParen :: ts =>
    match releaseToParen? stack with
    | some (out, rest) => (convert rest ts).map (out.map .op ++ ·)
    | none => .error .mismatchedParentheses
  | _, .unknown word :: _ => .error (.invalidToken word)

/-- The tokens of an expression in postfix order. -/
def ofInfix (tokens : List Token) : Except ParseError (List Token) :=
  convert [] tokens

/-- Tokens set apart by spaces. -/
def text (tokens : List Token) : String :=
  " ".intercalate (tokens.map Token.text)

example : (ofInfix (Token.ofText "a -> ( b | c ) & d ~ e")).map text
    = .ok "a b c | d & -> e ~" := rfl

example : ofInfix (Token.ofText "a ) x") = .error .mismatchedParentheses := rfl

example : ofInfix (Token.ofText "( a x )") = .error (.invalidToken "x") := rfl

end Postfix
end TwoLevel
