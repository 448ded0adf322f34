/-
# What can go wrong

Every failure is a cause, and the wording of each cause is in one place (`ParseError.message`,
`Error.message`).  A `ParseError` is a fault of the expression as written; the other causes name
a bound or an agreement between two values that does not hold.
-/

namespace TwoLevel

/-- The largest number of distinct variables of an expression, and the largest width of a
pattern. -/
def maxVariables : Nat := 5

/-- The ways in which a line of tokens fails to be an expression. -/
inductive ParseError where
  /-- The word is none of the tokens that may stand here. -/
  | invalidToken (word : String)
  /-- A parenthesis has no partner. -/
  | mismatchedParentheses
  /-- The operator finds too few operands. -/
  | missingOperand (symbol : String)
  /-- More than one operand is left when all operators are applied. -/
  | danglingOperands (count : Nat)
  /-- There is nothing to evaluate. -/
  | emptyExpression
  deriving DecidableEq, Repr, Inhabited

/-- The text shown for a fault of an expression. -/
def ParseError.message : ParseError → String
  | .invalidToken word => "Invalid token: \"" ++ word ++ "\""
  | .mismatchedParentheses => "Mismatched parentheses"
  | .missingOperand symbol => "Missing operand for \"" ++ symbol ++ "\""
  | .danglingOperands count => toString count ++ " operands are not connected by an operator"
  | .emptyExpression => "Empty expression"

/-- The causes of failure of the library and of its command line. -/
inductive Error where
  /-- A line of input is not well-formed text. -/
  | unreadableLine
  /-- The expression is faulty. -/
  | parse (fault : ParseError)
  /-- There are more variables, or more positions of a pattern, than supported. -/
  | tooManyVariables (count : Nat)
  /-- Two patterns have different widths. -/
  | widthsDiffer (left right : Nat)
  /-- A row index needs more bits than there are variables. -/
  | termOutOfRange (term width : Nat)
  /-- A pattern and the variables that it is written with do not agree in number. -/
  | variableMismatch (width count : Nat)
  /-- The text does not denote a pattern. -/
  | invalidPattern (text : String)
  /-- An assignment gives no value to a variable that is needed. -/
  | unassignedVariable (name : Char)
  /-- There is no Karnaugh map for so many variables. -/
  | unsupportedMapSize (count : Nat)
  /-- There is no expression to work on. -/
  | missingExpression
  /-- The first argument names no command. -/
  | unknownCommand (word : String)
  deriving DecidableEq, Repr, Inhabited

/-- The text shown for a failure. -/
def Error.message : Error → String
  | .unreadableLine => "IO error: stream did not contain valid UTF-8"
  | .parse fault => "Parsing error: " ++ fault.message
  | .tooManyVariables count =>
    "Too many variables: " ++ toString count ++ " (at most " ++ toString maxVariables
      ++ " are supported)"
  | .widthsDiffer left right =>
    "Implicants of different sizes can not be combined (" ++ toString left ++ " and "
      ++ toString right ++ ")"
  | .termOutOfRange term width =>
    "Term " ++ toString term ++ " does not fit in " ++ toString width ++ " variables"
  | .variableMismatch width count =>
    "A pattern of width " ++ toString width ++ " can not be rendered with "
      ++ toString count ++ " variables"
  | .invalidPattern text => "Invalid pattern \"" ++ text ++ "\""
  | .unassignedVariable name => "No value assigned to variable \"" ++ name.toString ++ "\""
  | .unsupportedMapSize count =>
    "Karnaugh maps are only available for 2 to 5 variables (got " ++ toString count ++ ")"
  | .missingExpression => "No expression was provided"
  | .unknownCommand word => "Unknown command: " ++ word

example : (Error.parse (.danglingOperands 2)).message
    = "Parsing error: 2 operands are not connected by an operator" := by decide

example : (Error.tooManyVariables 6).message
    = "Too many variables: 6 (at most 5 are supported)" := by decide

end TwoLevel
