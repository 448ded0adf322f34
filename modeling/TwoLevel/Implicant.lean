/-
# Implicants

An implicant is a pattern with the set of terms that it counts for, which is a property of its
own: it need not be all rows of the pattern.  An essential implicant is marked when it is chosen
for a cover.
-/
import TwoLevel.Ascending
import TwoLevel.FirstFailure
import TwoLevel.Pattern
import TwoLevel.Text.Layout

namespace TwoLevel

/-- A pattern with the terms that it covers. -/
structure Implicant where
  pattern : Pattern
  covered : TermSet
  /-- Whether it was chosen as the only one to cover some term. -/
  essential : Bool
  deriving DecidableEq, Repr, Inhabited

namespace Implicant

/-- An implicant that is not marked. -/
def ofCovered (p : Pattern) (covered : TermSet) : Implicant := ⟨p, covered, false⟩

/-- The implicant of all rows of a pattern. -/
def ofPattern (p : Pattern) : Implicant := ofCovered p ⟨p.terms, p.pairwise_terms⟩

/-- The implicant of a single row. -/
def ofTerm (term width : Nat) : Except Error Implicant :=
  (Pattern.ofTerm term width).map fun p => ofCovered p (Ascending.ofList [term])

/-- Whether the implicant counts for a term. -/
def covers (i : Implicant) (term : Nat) : Bool := term ∈ i.covered

/-- The implicant with its mark set or removed. -/
def mark (i : Implicant) (essential : Bool) : Implicant := { i with essential }

/-- The implicant merged from two neighbours: it covers the terms of both and is not marked. -/
def merge? (i j : Implicant) : Option Implicant :=
  (i.pattern.merge? j.pattern).map fun p => ofCovered p (i.covered.union j.covered)

/-- Merging two implicants is an error when their widths differ. -/
def combine (i j : Implicant) : Except Error (Option Implicant) :=
  (i.pattern.combine j.pattern).map fun r =>
    r.map fun p => ofCovered p (i.covered.union j.covered)

/-- The term of a form for the pattern of the implicant. -/
def render (i : Implicant) (vs : Variables) (form : NormalForm) : Except Error String :=
  i.pattern.render vs form

/-- The pattern and the terms. -/
def text (i : Implicant) : String :=
  i.pattern.text ++ " [" ++ Text.commaList i.covered.toList ++ "]"

/-- One line for each implicant. -/
def listText (is : List Implicant) : String :=
  String.join (is.map fun i => i.text ++ "\n")

/-- The terms of a form for each implicant. -/
def renderAll (is : List Implicant) (vs : Variables) (form : NormalForm) :
    Except Error (List String) :=
  collect (·.render vs form) is

@[simp] theorem mem_covered_ofPattern {p : Pattern} {t : Nat} :
    t ∈ (ofPattern p).covered ↔ p.covers t = true :=
  Pattern.mem_terms

theorem pattern_of_merge? {i j m : Implicant} (h : i.merge? j = some m) :
    i.pattern.merge? j.pattern = some m.pattern := by
  obtain ⟨p, hp, rfl⟩ := Option.map_eq_some_iff.mp h
  exact hp

/-- Implicants of one width never fail to combine. -/
theorem combine_eq_merge? {i j : Implicant} (h : i.pattern.width = j.pattern.width) :
    i.combine j = .ok (i.merge? j) := by
  simp [combine, Pattern.combine, h, merge?, Except.map]

end Implicant
end TwoLevel
