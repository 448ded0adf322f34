/-
# Coverage tables

A coverage table has a row for each implicant: its term of the normal form, and those of some
listed terms that it covers.
-/
import TwoLevel.Implicant

namespace TwoLevel

/-- An implicant as a term of a normal form, and the listed terms that it covers. -/
structure CoverageRow where
  expression : String
  covered : List Nat
  deriving DecidableEq, Repr

/-- A row for each implicant. -/
structure CoverageTable where
  rows : List CoverageRow
  deriving DecidableEq, Repr

namespace CoverageTable

/-- The row of one implicant; the terms stay in the order in which they are listed. -/
def rowOf (terms : List Nat) (vs : Variables) (form : NormalForm) (i : Implicant) :
    Except Error CoverageRow :=
  (i.render vs form).map fun text => ⟨text, terms.filter i.covers⟩

/-- The table of the implicants of a list. -/
def ofImplicants (is : List Implicant) (terms : List Nat) (vs : Variables)
    (form : NormalForm) : Except Error CoverageTable :=
  (collect (rowOf terms vs form) is).map CoverageTable.mk

/-- The width of the column of implicants. -/
def columnWidth : Nat := 17

/-- One line of the table. -/
def line (left right : String) : String :=
  Text.padRight columnWidth left ++ " | " ++ right ++ "\n"

/-- The table, or a line that says that there are no implicants. -/
def text (t : CoverageTable) : String :=
  if t.rows.isEmpty then "No prime implicants.\n"
  else
    line "Prime implicant" "Covered terms" ++
      Text.replicate (columnWidth + 1) '-' ++ "|" ++ Text.replicate 14 '-' ++ "\n" ++
      String.join (t.rows.map fun r => line r.expression (Text.commaList r.covered))

end CoverageTable
end TwoLevel
