/-
# The two normal forms

A sum of products is built on the rows of a truth table where the function is true, a product
of sums on the rows where it is false.  Each form is the dual of the other (`dual`): the target
value, the constants and the separators are exchanged.

A form is written in one of two styles, `Style.plain` with the symbols of expressions and
`Style.logical` with those of logic.
-/

namespace TwoLevel

/-! ## 1. Styles -/

/-- How literals, products and sums are written. -/
structure Style where
  /-- What stands before a negated variable. -/
  negation : String
  /-- What stands between the members of a conjunction. -/
  conjunction : String
  /-- What stands between the members of a disjunction. -/
  disjunction : String

/-- Minimal forms are written with the symbols of expressions. -/
def Style.plain : Style := ⟨"!", " & ", " | "⟩

/-- Canonical forms are written with the symbols of logic. -/
def Style.logical : Style := ⟨"¬", " ∧ ", " ∨ "⟩

/-! ## 2. Forms -/

/-- The normal forms that a function is written in. -/
inductive NormalForm where
  /-- A sum of products. -/
  | sop
  /-- A product of sums. -/
  | pos
  deriving DecidableEq, Repr, Inhabited

namespace NormalForm

/-- Both forms, in the order in which they are shown. -/
def all : List NormalForm := [.sop, .pos]

/-- The other form. -/
def dual : NormalForm → NormalForm
  | .sop => .pos
  | .pos => .sop

/-- The abbreviation of a form. -/
def name : NormalForm → String
  | .sop => "SOP"
  | .pos => "POS"

/-- The value of the function on the rows that are the terms of this form. -/
def target : NormalForm → Bool
  | .sop => true
  | .pos => false

/-- The constant for a form without terms. -/
def empty : NormalForm → String
  | .sop => "0"
  | .pos => "1"

/-- The constant for a form whose terms are all rows. -/
def full : NormalForm → String
  | .sop => "1"
  | .pos => "0"

/-- What stands between the literals of a term. -/
def literalSeparator (style : Style) : NormalForm → String
  | .sop => style.conjunction
  | .pos => style.disjunction

/-- What stands between terms. -/
def termSeparator (style : Style) : NormalForm → String
  | .sop => style.disjunction
  | .pos => style.conjunction

@[simp] theorem dual_dual (f : NormalForm) : f.dual.dual = f := by cases f <;> rfl

@[simp] theorem target_dual (f : NormalForm) : f.dual.target = !f.target := by cases f <;> rfl

@[simp] theorem empty_dual (f : NormalForm) : f.dual.empty = f.full := by cases f <;> rfl

@[simp] theorem full_dual (f : NormalForm) : f.dual.full = f.empty := by cases f <;> rfl

@[simp] theorem literalSeparator_dual (s : Style) (f : NormalForm) :
    f.dual.literalSeparator s = f.termSeparator s := by cases f <;> rfl

@[simp] theorem termSeparator_dual (s : Style) (f : NormalForm) :
    f.dual.termSeparator s = f.literalSeparator s := by cases f <;> rfl

end NormalForm
end TwoLevel
