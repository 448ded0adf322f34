/-
# Expressions

An expression is a text together with its variables and its tokens in postfix order.  It is
accepted when its tokens can be put into that order; whether each operator finds its operands
shows when it is evaluated.
-/
import TwoLevel.Log
import TwoLevel.Postfix.Conversion
import TwoLevel.Postfix.Evaluation

namespace TwoLevel

/-- An expression that has been read. -/
structure Expression where
  /-- The text that it was read from. -/
  source : String
  /-- The variables that occur in it. -/
  vars : Variables
  /-- Its tokens in postfix order. -/
  tokens : List Token
  deriving DecidableEq, Repr

namespace Expression

/-- The expression that a text denotes. -/
def parse (source : String) : Except Error Expression :=
  let tokens := Token.ofText source
  match Postfix.ofInfix tokens with
  | .ok ordered => .ok ⟨source, Variables.ofTokens tokens, ordered⟩
  | .error fault => .error (.parse fault)

/-- The value of an expression under an assignment. -/
def eval (e : Expression) (a : Assignment) : Except Error Bool :=
  Postfix.evaluate a e.tokens

/-- The tokens in postfix order, set apart by spaces. -/
def postfixText (e : Expression) : String :=
  Postfix.text e.tokens

/-- What is told about an expression that was read. -/
def log (e : Expression) : List Message :=
  [⟨.debug, "Parsed \"" ++ e.source ++ "\" as [" ++ e.postfixText ++ "]"⟩]

theorem source_of_parse {source : String} {e : Expression} (h : parse source = .ok e) :
    e.source = source := by
  simp only [parse] at h
  split at h
  · cases h; rfl
  · cases h

end Expression
end TwoLevel
