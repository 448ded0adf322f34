/-
# Truth tables

A truth table gives a function's value on each row, a row being an assignment of all variables.
Rows are in the order of their indices, so the list of values is all there is to keep; the
canonical forms and the index of the function are read off it.
-/
import TwoLevel.Expression
import TwoLevel.FirstFailure
import TwoLevel.Literal
import TwoLevel.Text.Layout

namespace TwoLevel

/-- The values of a function on the rows over some variables. -/
structure TruthTable where
  vars : Variables
  /-- The value on each row, in the order of the row indices. -/
  values : List Bool
  /-- There are no more variables than supported. -/
  size_le : vars.size ≤ maxVariables
  /-- Each row has one value. -/
  length_values : values.length = vars.rowCount
  deriving Repr

namespace TruthTable

/-! ## 1. Rows -/

/-- The table of an expression over a list of variables, which has to contain those of the
expression and may contain more. -/
def ofExpressionOver (vs : Variables) (e : Expression) : Except Error TruthTable :=
  if hs : vs.size ≤ maxVariables then
    match h : collect (fun i => e.eval (Assignment.ofRow vs i)) (List.range vs.rowCount) with
    | .ok values => .ok ⟨vs, values, hs, by simpa using length_of_collect h⟩
    | .error error => .error error
  else .error (.tooManyVariables vs.size)

/-- The table exists exactly when the expression has a value on each row, and it holds these
values. -/
theorem ofExpressionOver_eq_ok_iff {vs : Variables} {e : Expression} {t : TruthTable} :
    ofExpressionOver vs e = .ok t ↔
      vs.size ≤ maxVariables ∧ t.vars = vs ∧
        (List.range vs.rowCount).map (fun i => e.eval (Assignment.ofRow vs i))
          = t.values.map .ok := by
  unfold ofExpressionOver
  split
  · next hs =>
    split
    · next values h =>
      have hv := collect_eq_ok_iff.mp h
      constructor
      · intro ht
        cases ht
        exact ⟨hs, rfl, hv⟩
      · rintro ⟨-, hvs, ht⟩
        have e : values = t.values :=
          List.map_inj_right (fun _ _ h => Except.ok.inj h) |>.mp (hv.symm.trans ht)
        cases t
        cases hvs
        cases e
        rfl
    · next error h =>
      constructor
      · intro ht
        cases ht
      · rintro ⟨-, -, ht⟩
        rw [collect_eq_ok_iff.mpr ht] at h
        cases h
  · next hs =>
    constructor
    · intro ht
      cases ht
    · rintro ⟨h, -⟩
      exact absurd h hs

/-- With more variables than supported there is no table. -/
theorem ofExpressionOver_of_lt {vs : Variables} (e : Expression) (h : maxVariables < vs.size) :
    ofExpressionOver vs e = .error (.tooManyVariables vs.size) :=
  dif_neg (Nat.not_le.mpr h)

/-- Otherwise the first row without a value decides the failure. -/
theorem ofExpressionOver_eq_error_iff {vs : Variables} {e : Expression} {error : Error}
    (hs : vs.size ≤ maxVariables) :
    ofExpressionOver vs e = .error error ↔
      collect (fun i => e.eval (Assignment.ofRow vs i)) (List.range vs.rowCount)
        = .error error := by
  rw [ofExpressionOver, dif_pos hs]
  split
  · next h => simp [h]
  · next h => simp [h]

/-- The table of an expression over its own variables. -/
def ofExpression (e : Expression) : Except Error TruthTable :=
  ofExpressionOver e.vars e

/-- The rows with their values, in the order of the row indices. -/
def rows (t : TruthTable) : List (Assignment × Bool) :=
  t.values.zipIdx.map fun (value, i) => (Assignment.ofRow t.vars i, value)

/-- What is told about the table of an expression. -/
def log (t : TruthTable) (e : Expression) : List Message :=
  [⟨.debug, "Truth table of \"" ++ e.source ++ "\": " ++ toString t.values.length ++ " rows"⟩]

/-! ## 2. Canonical forms -/

/-- The rows that are the terms of a form. -/
def terms (t : TruthTable) (form : NormalForm) : List Nat :=
  (t.values.zipIdx.filter fun (value, _) => value = form.target).map Prod.snd

/-- The literals of the term of a form for one row. -/
def rowLiterals (form : NormalForm) (a : Assignment) : List Literal :=
  a.entries.map fun (name, value) => .ofValue form name value

/-- The terms of the canonical form, one for each row that is a term. -/
def canonicalTerms (t : TruthTable) (form : NormalForm) : List String :=
  (t.terms form).map fun i =>
    Literal.canonicalText form (rowLiterals form (Assignment.ofRow t.vars i))

/-- The canonical form: all terms, or the constant of the form when there is none. -/
def canonicalText (t : TruthTable) (form : NormalForm) : String :=
  match t.canonicalTerms form with
  | [] => form.empty
  | terms => (form.termSeparator .logical).intercalate terms

/-! ## 3. The index of the function -/

/-- The values read as a binary number, the first row being the most significant digit.  A
table has at most 32 rows. -/
def index (t : TruthTable) : UInt32 :=
  t.values.foldl (fun acc value => acc <<< 1 ||| value.toUInt32) 0

/-- The values written as binary digits. -/
def binary (t : TruthTable) : String :=
  Text.bitDigits t.values

/-! ## 4. The table as a text -/

/-- One row: the values of the variables, a bar and the value of the function. -/
def rowText (a : Assignment) (value : Bool) : String :=
  " ".intercalate (a.values.map fun v => Text.bitDigits [v]) ++ " | " ++ Text.bitDigits [value]
    ++ "\n"

/-- The table, one line for each row, under a line with the variables. -/
def text (t : TruthTable) : String :=
  t.vars.text ++ " | F\n" ++ String.join (t.rows.map fun (a, value) => rowText a value)

@[simp] theorem length_rows (t : TruthTable) : t.rows.length = t.vars.rowCount := by
  simp [rows, t.length_values]

end TruthTable
end TwoLevel
