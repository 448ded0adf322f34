/-
# Formulas

A formula is the tree of an expression.  Its tokens in postorder are what the evaluation of
expressions works on:

* `run_postorder`: they leave the value of the formula on top of the stack;
* `evaluate_postorder`: alone they evaluate to it.
-/
import TwoLevel.Postfix.Evaluation

namespace TwoLevel

/-- Variables joined by operators. -/
inductive Formula where
  | var (name : Char)
  | not (operand : Formula)
  | connect (o : Operator) (binary : o.isUnary = false) (left right : Formula)
  deriving DecidableEq, Repr

namespace Formula

/-- The value of a formula for values of its variables. -/
def value (v : Char → Bool) : Formula → Bool
  | .var name => v name
  | .not f => !f.value v
  | .connect o _ l r => o.apply (l.value v) (r.value v)

/-- The names that occur in a formula, from left to right. -/
def names : Formula → List Char
  | .var name => [name]
  | .not f => f.names
  | .connect _ _ l r => l.names ++ r.names

/-- The tokens of a formula, each operator after its operands. -/
def postorder : Formula → List Token
  | .var name => [.var name]
  | .not f => f.postorder ++ [.op .not]
  | .connect o _ l r => l.postorder ++ r.postorder ++ [.op o]

/-- A formula looks only at the names that occur in it. -/
theorem value_congr {v w : Char → Bool} {f : Formula} (h : ∀ c ∈ f.names, v c = w c) :
    f.value v = f.value w := by
  induction f with
  | var name => exact h name (by simp [names])
  | not f ih => rw [value, value, ih h]
  | connect o binary l r ihl ihr =>
    rw [value, value, ihl fun c hc => h c (by simp [names, hc]),
      ihr fun c hc => h c (by simp [names, hc])]

/-- **The postorder leaves the value on top.**  What follows starts from there. -/
theorem run_postorder {a : Assignment} {v : Char → Bool} {f : Formula}
    (h : ∀ c ∈ f.names, a.get? c = some (v c)) (stack : List Bool) (rest : List Token) :
    Postfix.run a stack (f.postorder ++ rest) = Postfix.run a (f.value v :: stack) rest := by
  induction f generalizing stack rest with
  | var name =>
    have hv : a.get? name = some (v name) := h name (by simp [names])
    simp [postorder, value, Postfix.run, Postfix.step, hv]
  | not f ih =>
    rw [postorder, List.append_assoc, ih h]
    simp [Postfix.run, Postfix.step, Postfix.applyOperator, Operator.isUnary, Operator.apply,
      value]
  | connect o binary l r ihl ihr =>
    have hl : ∀ c ∈ l.names, a.get? c = some (v c) := fun c hc => h c (by simp [names, hc])
    have hr : ∀ c ∈ r.names, a.get? c = some (v c) := fun c hc => h c (by simp [names, hc])
    rw [postorder, List.append_assoc, List.append_assoc, ihl hl, ihr hr]
    simp [Postfix.run, Postfix.step, Postfix.applyOperator, binary, value]

/-- The postorder of a formula evaluates to its value. -/
theorem evaluate_postorder {a : Assignment} {v : Char → Bool} {f : Formula}
    (h : ∀ c ∈ f.names, a.get? c = some (v c)) :
    Postfix.evaluate a f.postorder = .ok (f.value v) := by
  have hrun := run_postorder h [] []
  rw [List.append_nil] at hrun
  simp [Postfix.evaluate, hrun, Postfix.run, Postfix.result]

end Formula
end TwoLevel
