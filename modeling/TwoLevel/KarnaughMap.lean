/-
# Karnaugh maps

A Karnaugh map shows the values of a function in a grid.  Rows and columns stand for the values
of some of the variables each, in the order of the Gray code, so that neighbours differ in one
variable.  Five variables make two grids, one for each value of the first variable.

A cell shows the row of the truth table whose bits are the values of the grid, of its row and of
its column one after the other (`cellIndex`).

* `map_ofBits_grayCode`: the Gray code of up to two bits as numbers;
* `KarnaughMap.indices_grids`: the rows of the truth table that the grids show, as numbers.
-/
import TwoLevel.Error
import TwoLevel.NormalForm
import TwoLevel.RowIndex
import TwoLevel.Text.Layout
import TwoLevel.Variables

namespace TwoLevel

/-! ## 1. The Gray code -/

/-- All rows of bits of one length, neighbours differing in one bit. -/
def grayCode : Nat → List (List Bool)
  | 0 => [[]]
  | n + 1 => (grayCode n).map (false :: ·) ++ (grayCode n).reverse.map (true :: ·)

example : grayCode 2 = [[false, false], [false, true], [true, true], [true, false]] := by decide

@[simp] theorem length_grayCode (n : Nat) : (grayCode n).length = RowIndex.count n := by
  induction n with
  | zero => rfl
  | succ n ih => simp [grayCode, ih, RowIndex.count_succ]

theorem mem_grayCode {n : Nat} {bs : List Bool} : bs ∈ grayCode n ↔ bs.length = n := by
  induction n generalizing bs with
  | zero => simp [grayCode]
  | succ n ih =>
    cases bs with
    | nil => simp [grayCode]
    | cons b bs => cases b <;> simp [grayCode, ih]

/-- The Gray code of up to two bits as numbers. -/
def grayNumbers : Nat → List Nat
  | 0 => [0]
  | 1 => [0, 1]
  | _ => [0, 1, 3, 2]

theorem map_ofBits_grayCode {n : Nat} (h : n ≤ 2) :
    (grayCode n).map RowIndex.ofBits = grayNumbers n := by
  match n, h with
  | 0, _ | 1, _ | 2, _ => rfl

/-! ## 2. Maps -/

/-- The values of a function of two to five variables. -/
structure KarnaughMap where
  vars : Variables
  values : List Bool
  form : NormalForm
  /-- There is a grid for the number of variables. -/
  size_range : 2 ≤ vars.size ∧ vars.size ≤ 5
  /-- Each row has one value. -/
  length_values : values.length = vars.rowCount
  deriving DecidableEq, Repr

/-- A part of a map: the values of the variables before it, and the variables of its rows and of
its columns. -/
structure Grid where
  leading : List Bool
  rowNames : List Char
  columnNames : List Char
  deriving DecidableEq, Repr

namespace KarnaughMap

/-- The map of the values of a function, in the order of the row indices. -/
def ofValues (values : List Bool) (vs : Variables) (form : NormalForm) :
    Except Error KarnaughMap :=
  if hs : 2 ≤ vs.size ∧ vs.size ≤ 5 then
    if hv : values.length = vs.rowCount then .ok ⟨vs, values, form, hs, hv⟩
    else .error (.unsupportedMapSize vs.size)
  else .error (.unsupportedMapSize vs.size)

/-- Whether the row at an index is a term of the form, if there is such a row. -/
def cell? (m : KarnaughMap) (index : Nat) : Option Bool :=
  (m.values[index]?).map (· = m.form.target)

/-- The grid under some leading values: the first half of the other variables are its rows. -/
def gridUnder (m : KarnaughMap) (leading : List Bool) : Grid :=
  let names := m.vars.toList.drop leading.length
  ⟨leading, names.take (names.length / 2), names.drop (names.length / 2)⟩

/-- The first half of the variables of a grid are those of its rows. -/
theorem length_names_gridUnder {m : KarnaughMap} {leading : List Bool} {n : Nat}
    (hn : m.vars.size - leading.length = n) :
    (m.gridUnder leading).rowNames.length = n / 2 ∧
      (m.gridUnder leading).columnNames.length = n - n / 2 := by
  have hnames : m.vars.toList.length - leading.length = n := hn
  simp only [gridUnder, List.length_take, List.length_drop, hnames, and_true]
  exact Nat.min_eq_left (Nat.div_le_self n 2)

/-- The grids of the map. -/
def grids (m : KarnaughMap) : List Grid :=
  if m.vars.size < 5 then [m.gridUnder []]
  else [m.gridUnder [false], m.gridUnder [true]]

/-- The index of the row that a cell of a grid shows. -/
def cellIndex (g : Grid) (row column : List Bool) : Nat :=
  RowIndex.ofBits (g.leading ++ row ++ column)

/-- The index of a cell is the sum of what the grid, the row and the column give. -/
theorem cellIndex_eq (g : Grid) (row column : List Bool) :
    cellIndex g row column = (RowIndex.ofBits g.leading <<< (row.length + column.length))
      + (RowIndex.ofBits row <<< column.length) + RowIndex.ofBits column := by
  rw [cellIndex, RowIndex.ofBits_append, RowIndex.ofBits_append]
  simp only [Nat.shiftLeft_eq, Nat.pow_add, Nat.add_mul, Nat.mul_assoc]

/-- The indices of the cells of a grid, row by row. -/
def indices (g : Grid) : List (List Nat) :=
  (grayCode g.rowNames.length).map fun row =>
    (grayCode g.columnNames.length).map (cellIndex g row)

/-- Each cell of a grid has the offset of the grid, the number of its row past the columns, and the
number of its column. -/
theorem indices_gridUnder {m : KarnaughMap} {leading : List Bool} {n : Nat}
    (hn : m.vars.size - leading.length = n) (hle : n ≤ 4) :
    indices (m.gridUnder leading) = (grayNumbers (n / 2)).map fun r =>
      (grayNumbers (n - n / 2)).map fun c =>
        (RowIndex.ofBits leading <<< n) + (r <<< (n - n / 2)) + c := by
  obtain ⟨hrow, hcol⟩ := length_names_gridUnder hn
  have hbits : n / 2 + (n - n / 2) = n := by omega
  rw [indices, hrow, hcol, ← map_ofBits_grayCode (by omega), ← map_ofBits_grayCode (by omega),
    List.map_map]
  refine List.map_congr_left fun row hr => ?_
  rw [Function.comp_apply, List.map_map]
  refine List.map_congr_left fun column hc => ?_
  rw [Function.comp_apply, cellIndex_eq, mem_grayCode.mp hr, mem_grayCode.mp hc, hbits]
  rfl

/-- **The rows of the truth table that the grids show.**  Up to four variables there is one grid
without an offset.  Of five variables the first chooses the grid, whose offset is 0 or 16. -/
theorem indices_grids (m : KarnaughMap) :
    m.grids.map indices
      = (if m.vars.size < 5 then [(0, 0)] else [(1, 0), (1, 16)]).map fun (first, offset) =>
        let n := m.vars.size - first
        (grayNumbers (n / 2)).map fun r =>
          (grayNumbers (n - n / 2)).map fun c => offset + (r <<< (n - n / 2)) + c := by
  by_cases hlt : m.vars.size < 5
  · have hnone : indices (m.gridUnder []) = _ := indices_gridUnder rfl (Nat.le_of_lt_succ hlt)
    rw [grids, if_pos hlt, if_pos hlt, List.map_singleton, List.map_singleton, hnone]
    simp [RowIndex.ofBits]
  · have hfive : m.vars.size = 5 := by
      have := m.size_range
      omega
    have hgrid (value : Bool) : indices (m.gridUnder [value]) = _ :=
      indices_gridUnder (congrArg (· - 1) hfive) (Nat.le_refl 4)
    rw [grids, if_neg hlt, if_neg hlt, List.map_cons, List.map_singleton, hgrid, hgrid, hfive]
    rfl

/-- Whether a cell of a grid is marked. -/
def marked (m : KarnaughMap) (g : Grid) (row column : List Bool) : Bool :=
  m.cell? (cellIndex g row column) = some true

/-! ## 3. The map as a text -/

/-- The names of the rows and of the columns of a grid. -/
def corner (g : Grid) : String :=
  String.ofList g.rowNames ++ "\\" ++ String.ofList g.columnNames

/-- The columns of a grid set apart by a separator. -/
def columnsText (separator : String) (g : Grid) (column : List Bool → String) : String :=
  separator.intercalate ((grayCode g.columnNames.length).map column)

/-- The width of the column of row labels: the number of bytes of the corner. -/
def labelWidth (g : Grid) : Nat :=
  (corner g).utf8ByteSize

/-- The line with the column labels, and the line below it. -/
def headText (g : Grid) : String :=
  Text.padRight (labelWidth g) (corner g) ++ " | " ++ columnsText " | " g Text.bitDigits ++ "\n"
    ++ Text.replicate (labelWidth g) '-' ++ "-+-"
    ++ columnsText "-+-" g (fun column => Text.replicate column.length '-') ++ "\n"

/-- The line of one row of a grid. -/
def rowText (m : KarnaughMap) (g : Grid) (row : List Bool) : String :=
  Text.padRight (labelWidth g) (Text.bitDigits row) ++ " | "
    ++ columnsText " | " g (fun column =>
      Text.padRight column.length (Text.bitDigits [m.marked g row column])) ++ "\n"

/-- The line above a grid: the number of variables, the leading value if there is one, and the
form. -/
def titleText (m : KarnaughMap) (g : Grid) : String :=
  let leading := (m.vars.toList.zip g.leading).map fun (name, value) =>
    ", " ++ name.toString ++ "=" ++ Text.bitDigits [value]
  "Karnaugh map for " ++ toString m.vars.size ++ " variables" ++ String.join leading
    ++ " (" ++ m.form.name ++ ")\n"

/-- A grid with its title. -/
def gridText (m : KarnaughMap) (g : Grid) : String :=
  m.titleText g ++ headText g
    ++ String.join ((grayCode g.rowNames.length).map (m.rowText g))

/-- The grids one below the other. -/
def text (m : KarnaughMap) : String :=
  String.join (m.grids.map m.gridText)

end KarnaughMap
end TwoLevel
