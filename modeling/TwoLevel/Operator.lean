/-
# The operators

Five operators connect variables: negation, conjunction, disjunction, implication and
equivalence, from the tightest to the loosest.  `yieldsTo` is the only place where precedence
and associativity are compared; everything that reads expressions goes through it.
-/

namespace TwoLevel

/-- The operators of expressions. -/
inductive Operator where
  | not
  | and
  | or
  | implies
  | iff
  deriving DecidableEq, Repr, Inhabited

namespace Operator

/-- All operators, the tightest first. -/
def all : List Operator := [.not, .and, .or, .implies, .iff]

/-- The word for an operator. -/
def symbol : Operator → String
  | .not => "!"
  | .and => "&"
  | .or => "|"
  | .implies => "->"
  | .iff => "~"

/-- The operator that a word denotes, if any. -/
def ofSymbol? (word : String) : Option Operator :=
  all.find? fun o => o.symbol = word

/-- How tightly an operator binds: a larger number binds tighter. -/
def precedence : Operator → Nat
  | .not => 4
  | .and => 3
  | .or => 2
  | .implies => 1
  | .iff => 0

/-- Conjunction and disjunction group to the left, the other operators to the right. -/
def leftAssociative : Operator → Bool
  | .and | .or => true
  | .not | .implies | .iff => false

/-- Negation takes one operand, the other operators take two. -/
def isUnary (o : Operator) : Bool :=
  o = .not

/-- An operator that is read yields to one that is still waiting when the waiting one must be
applied first: when it binds tighter, or as tight in a group to the left. -/
def yieldsTo (o waiting : Operator) : Bool :=
  if o.leftAssociative then o.precedence ≤ waiting.precedence
  else o.precedence < waiting.precedence

/-- The value of an operator on its operands.  Negation looks at the right one only. -/
def apply : Operator → Bool → Bool → Bool
  | .not, _, r => !r
  | .and, l, r => l && r
  | .or, l, r => l || r
  | .implies, l, r => !l || r
  | .iff, l, r => l == r

theorem mem_all (o : Operator) : o ∈ all := by cases o <;> decide

/-- Distinct operators have distinct symbols. -/
theorem symbol_injective {o p : Operator} (h : o.symbol = p.symbol) : o = p := by
  revert h; cases o <;> cases p <;> decide

@[simp] theorem ofSymbol?_symbol (o : Operator) : ofSymbol? o.symbol = some o := by
  cases o <;> decide

theorem ofSymbol?_eq_some_iff {word : String} {o : Operator} :
    ofSymbol? word = some o ↔ word = o.symbol := by
  constructor
  · intro h
    have := List.find?_some h
    simpa [eq_comm] using this
  · rintro rfl
    exact ofSymbol?_symbol o

end Operator
end TwoLevel
