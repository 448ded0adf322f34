/-
# Literals

A literal is a variable or its negation.  The term of a form for given values of some variables
has one literal for each: in a product the literal is true at the given value, in a sum it is
false there.
-/
import TwoLevel.NormalForm

namespace TwoLevel

/-- A variable or its negation. -/
structure Literal where
  name : Char
  negated : Bool
  deriving DecidableEq, Repr, Inhabited

namespace Literal

/-- The literal of a form for a value of a variable: it is negated when the value is not the
target of the form. -/
def ofValue (form : NormalForm) (name : Char) (value : Bool) : Literal :=
  ⟨name, value != form.target⟩

/-- The text of a literal. -/
def text (style : Style) (l : Literal) : String :=
  if l.negated then style.negation ++ l.name.toString else l.name.toString

/-- The literals of a term set apart by the separator of the form. -/
def joined (style : Style) (form : NormalForm) (ls : List Literal) : String :=
  (form.literalSeparator style).intercalate (ls.map (text style))

/-- A term of a minimal form: the constant of the form when there is no literal, and in
parentheses when it is a sum of several. -/
def termText (form : NormalForm) (ls : List Literal) : String :=
  match ls, form with
  | [], _ => form.full
  | [l], _ => l.text .plain
  | ls, .sop => joined .plain .sop ls
  | ls, .pos => "( " ++ joined .plain .pos ls ++ " )"

/-- A term of a canonical form, always in parentheses. -/
def canonicalText (form : NormalForm) (ls : List Literal) : String :=
  "(" ++ joined .logical form ls ++ ")"

example : termText .pos [⟨'a', true⟩, ⟨'b', false⟩] = "( !a | b )" := by decide

example : canonicalText .sop [⟨'a', true⟩, ⟨'b', false⟩] = "(¬a ∧ b)" := by decide

@[simp] theorem negated_ofValue_dual (form : NormalForm) (name : Char) (value : Bool) :
    (ofValue form.dual name value).negated = !(ofValue form name value).negated := by
  cases form <;> cases value <;> rfl

end Literal
end TwoLevel
