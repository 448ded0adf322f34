/-
# Covers

A cover writes a function in a normal form: chosen implicants, each as a term.  No implicant is
chosen for a function without terms, nor for one whose terms are all rows: both are constants.
-/
import TwoLevel.Selection

namespace TwoLevel

/-- What has to be covered. -/
inductive Demand where
  /-- There are no terms. -/
  | nothing
  /-- The terms are all rows. -/
  | everything
  /-- The terms are some of the rows, or there are terms that are no rows. -/
  | some (targets : TermSet)
  deriving Repr

namespace Demand

/-- What has to be covered for a list of terms in a table of some number of rows. -/
def ofRows (terms : List Nat) (rows : Nat) : Demand :=
  let targets : TermSet := Ascending.ofList terms
  if targets.isEmpty then .nothing
  else if targets.size = rows ∧ ∀ t ∈ targets.toList, t < rows then .everything
  else .some targets

/-- What has to be covered for a list of terms over some variables. -/
def ofTerms (terms : List Nat) (vs : Variables) : Demand := ofRows terms vs.rowCount

end Demand

/-- A normal form of a function, with the implicants that it is made of. -/
structure Cover where
  expression : String
  selected : List Implicant
  /-- The terms that none of the implicants covers. -/
  uncovered : TermSet
  deriving DecidableEq, Repr

namespace Cover

/-- The cover of a constant function. -/
def constant (text : String) : Cover := ⟨text, [], .empty⟩

/-- Chosen implicants as a normal form: their terms, or the constant of the form when none is
chosen. -/
def expressionOf (is : List Implicant) (vs : Variables) (form : NormalForm) :
    Except Error String :=
  match is with
  | [] => .ok form.empty
  | is => (Implicant.renderAll is vs form).map (form.termSeparator .plain).intercalate

/-- The cover of what is demanded by implicants of a list. -/
def ofDemand (is : List Implicant) (demand : Demand) (vs : Variables) (form : NormalForm) :
    Except Error Cover :=
  match demand with
  | .nothing => .ok (constant form.empty)
  | .everything => .ok (constant form.full)
  | .some targets =>
    let s := Selection.choose is targets
    (expressionOf s.selected vs form).map fun text => ⟨text, s.selected, s.uncovered⟩

/-- The cover of the terms by implicants of a list. -/
def select (is : List Implicant) (terms : List Nat) (vs : Variables) (form : NormalForm) :
    Except Error Cover :=
  ofDemand is (.ofTerms terms vs) vs form

/-- Whether each term is covered. -/
def isComplete (c : Cover) : Bool := c.uncovered.isEmpty

/-- What is told about the choice of implicants, also when they cannot be written. -/
def log (is : List Implicant) (terms : List Nat) (vs : Variables) : List Message :=
  match Demand.ofTerms terms vs with
  | .some targets => (Selection.choose is targets).log
  | _ => []

end Cover

/-- The terms as a normal form of few implicants. -/
def minimalExpression (is : List Implicant) (terms : List Nat) (vs : Variables)
    (form : NormalForm) : Except Error String :=
  (Cover.select is terms vs form).map Cover.expression

end TwoLevel
