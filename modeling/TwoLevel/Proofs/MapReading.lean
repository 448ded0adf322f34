/-
# Reading a map

The text of a map is read the way a person reads it: a separator below the column labels shows
where the columns are, each line of a row begins with its label, and the title of each of two
grids has the value of the first variable.  The labels of a cell, put together, are the digits of
a row index (`Sheet.cells`).

* `isCircle_grayCode`: neighbours in the Gray code differ in one bit, all around;
* `Text.columns_row`: the columns of a line are found where the separator has them;
* `KarnaughMap.sheetsOf_text`: the grids of a map are found in its text;
* `KarnaughMap.text_shows_rows`: each row has one cell, which shows its value.
-/
import Mathlib.Data.List.Chain
import Mathlib.Data.List.Nodup
import Mathlib.Data.List.Perm.Subperm
import Mathlib.Data.String.Basic
import TwoLevel.KarnaughMap
import TwoLevel.Proofs.FunctionIndex

namespace TwoLevel

/-! ## 1. Neighbours in the Gray code -/

/-- Whether two lists differ in one place. -/
def DifferOnce {α : Type} (xs ys : List α) : Prop :=
  ∃ before x y after, xs = before ++ x :: after ∧ ys = before ++ y :: after ∧ x ≠ y

namespace DifferOnce

variable {α β : Type} {xs ys : List α}

theorem cons (h : DifferOnce xs ys) (a : α) : DifferOnce (a :: xs) (a :: ys) := by
  obtain ⟨before, x, y, after, rfl, rfl, hne⟩ := h
  exact ⟨a :: before, x, y, after, rfl, rfl, hne⟩

theorem symm (h : DifferOnce xs ys) : DifferOnce ys xs := by
  obtain ⟨before, x, y, after, rfl, rfl, hne⟩ := h
  exact ⟨before, y, x, after, rfl, rfl, hne.symm⟩

theorem map {f : α → β} (hf : ∀ x y, f x = f y → x = y) (h : DifferOnce xs ys) :
    DifferOnce (xs.map f) (ys.map f) := by
  obtain ⟨before, x, y, after, rfl, rfl, hne⟩ := h
  exact ⟨before.map f, f x, f y, after.map f, by simp, by simp, mt (hf x y) hne⟩

/-- One row, if there is one, with a bit in front and with the other bit. -/
theorem of_mem_map {row : Option (List Bool)} {b : Bool} {xs ys : List Bool}
    (hx : xs ∈ row.map (b :: ·)) (hy : ys ∈ row.map ((!b) :: ·)) : DifferOnce xs ys := by
  obtain ⟨bs, hbs, rfl⟩ := Option.map_eq_some_iff.mp hx
  obtain ⟨cs, hcs, rfl⟩ := Option.map_eq_some_iff.mp hy
  obtain rfl := Option.mem_unique hbs hcs
  exact ⟨[], b, !b, bs, rfl, rfl, by cases b <;> decide⟩

end DifferOnce

/-- Whether neighbours in a list of labels differ in one place, the last and the first being
neighbours too. -/
def IsCircle {α : Type} (labels : List (List α)) : Prop :=
  (labels ++ labels.take 1).IsChain DifferOnce

theorem IsCircle.map {α β : Type} {f : α → β} (hf : ∀ x y, f x = f y → x = y)
    {labels : List (List α)} (h : IsCircle labels) : IsCircle (labels.map (List.map f)) := by
  rw [IsCircle, ← List.map_take, ← List.map_append]
  exact List.isChain_map_of_isChain _ (fun _ _ hd => hd.map hf) h

theorem grayCode_ne_nil (n : Nat) : grayCode n ≠ [] := by
  intro h
  have hlen := congrArg List.length h
  rw [length_grayCode] at hlen
  exact absurd hlen (Nat.ne_of_gt (RowIndex.count_pos n))

/-- The last of the rows with a bit in front is the first of the rows without it. -/
theorem getLast?_grayCode_succ (n : Nat) :
    (grayCode (n + 1)).getLast? = (grayCode n).head?.map (true :: ·) := by
  rw [grayCode, List.getLast?_append, List.getLast?_map, List.getLast?_reverse]
  obtain ⟨row, rows, hrows⟩ := List.exists_cons_of_ne_nil (grayCode_ne_nil n)
  simp [hrows]

theorem head?_grayCode_succ (n : Nat) :
    (grayCode (n + 1)).head? = (grayCode n).head?.map (false :: ·) := by
  obtain ⟨row, rows, hrows⟩ := List.exists_cons_of_ne_nil (grayCode_ne_nil n)
  simp [grayCode, hrows]

/-- Neighbours in the Gray code differ in one bit.  Where the two halves meet it is the first. -/
theorem isChain_grayCode (n : Nat) : (grayCode n).IsChain DifferOnce := by
  induction n with
  | zero => simp [grayCode]
  | succ n ih =>
    refine List.IsChain.append ?_ ?_ ?_
    · exact List.isChain_map_of_isChain _ (fun _ _ h => h.cons false) ih
    · have hreverse : (grayCode n).reverse.IsChain DifferOnce :=
        List.isChain_reverse.mpr (ih.imp fun _ _ h => h.symm)
      exact List.isChain_map_of_isChain _ (fun _ _ h => h.cons true) hreverse
    · intro x hx y hy
      rw [List.getLast?_map] at hx
      rw [List.head?_map, List.head?_reverse] at hy
      exact .of_mem_map hx hy

/-- **The Gray code is a circle.** -/
theorem isCircle_grayCode (n : Nat) : IsCircle (grayCode (n + 1)) := by
  refine List.IsChain.append (isChain_grayCode (n + 1)) ?_ ?_
  · cases grayCode (n + 1) <;> simp
  · intro x hx y hy
    rw [getLast?_grayCode_succ] at hx
    rw [List.head?_take, if_neg Nat.one_ne_zero, head?_grayCode_succ] at hy
    exact .of_mem_map hx hy

/-! ## 2. Lines and columns -/

namespace Text

/-- The lines of a text in which each line is ended. -/
def lines (text : String) : List (List Char) :=
  (text.toList.splitOn '\n').dropLast

/-- The entries of a line, without spaces.  The columns end where the separator has a cross. -/
def columns (rule line : List Char) : List (List Char) :=
  ((line.zip rule).splitOnP (·.2 = '+')).map fun column =>
    (column.map Prod.fst).filter (· ≠ ' ')

/-- A line with some entries. -/
def row (entries : List (List Char)) : List Char :=
  [' ', '|', ' '].intercalate entries

/-- A separator between lines whose columns have some widths. -/
def rule (widths : List Nat) : List Char :=
  ['-', '+', '-'].intercalate (widths.map (List.replicate · '-'))

/-- Lines that are ended one by one are found again. -/
theorem lines_eq {text : String} {ls : List (List Char)}
    (htext : text.toList = ls.flatMap (· ++ ['\n'])) (hls : ∀ l ∈ ls, '\n' ∉ l) :
    lines text = ls := by
  have hsplit : (ls.flatMap (· ++ ['\n'])).splitOn '\n' = ls ++ [[]] := by
    clear htext
    induction ls with
    | nil => rfl
    | cons l ls ih =>
      rw [List.flatMap_cons, List.append_assoc, List.singleton_append,
        List.splitOn_append_cons_self_of_not_mem (hls l List.mem_cons_self),
        ih fun k hk => hls k (List.mem_cons_of_mem l hk)]
      rfl
  rw [lines, htext, hsplit, List.dropLast_concat]

theorem length_row (entries : List (List Char)) :
    (row entries).length = (rule (entries.map List.length)).length := by
  induction entries with
  | nil => rfl
  | cons e entries ih =>
    cases entries with
    | nil => simp [row, rule]
    | cons d entries =>
      simp only [row, rule, List.map_cons, List.intercalate_cons_cons, List.length_append,
        List.length_replicate] at ih ⊢
      rw [ih]
      rfl

/-- A space at the beginning of a line is not seen. -/
theorem columns_cons_space (rule line : List Char) :
    columns ('-' :: rule) (' ' :: line) = columns rule line := by
  rw [columns, columns, List.zip_cons_cons, List.splitOnP_cons_eq_if_modifyHead,
    if_neg (by decide)]
  cases (line.zip rule).splitOnP (·.2 = '+') with
  | nil => rfl
  | cons column columns => simp

/-- Below an entry the separator has no cross. -/
theorem snd_ne_cross {entry : List Char} {n : Nat} {x : Char × Char}
    (hx : x ∈ entry.zip (List.replicate n '-')) : decide (x.2 = '+') = false := by
  rw [List.eq_of_mem_replicate (List.of_mem_zip hx).2]
  rfl

theorem map_fst_zip_replicate (entry : List Char) :
    (entry.zip (List.replicate entry.length '-')).map Prod.fst = entry :=
  List.map_fst_zip (by simp)

/-- The columns of a line with one entry more. -/
theorem columns_append (entry rule line : List Char) :
    columns (List.replicate entry.length '-' ++ ['-', '+', '-'] ++ rule)
        (entry ++ [' ', '|', ' '] ++ line)
      = entry.filter (· ≠ ' ') :: columns rule line := by
  have hzip : (entry ++ [' ', '|', ' '] ++ line).zip
        (List.replicate entry.length '-' ++ ['-', '+', '-'] ++ rule)
      = (entry.zip (List.replicate entry.length '-') ++ [(' ', '-')])
        ++ ('|', '+') :: (' ' :: line).zip ('-' :: rule) := by
    rw [List.append_assoc, List.append_assoc, List.zip_append (by simp)]
    simp
  have hcolumn : ∀ x ∈ entry.zip (List.replicate entry.length '-') ++ [(' ', '-')],
      decide (x.2 = '+') = false := by
    intro x hx
    rcases List.mem_append.mp hx with hx | hx
    · exact snd_ne_cross hx
    · rw [List.mem_singleton.mp hx]
      rfl
  -- the space after the cross is the first character of the next column
  rw [← columns_cons_space rule line, columns, columns, hzip,
    List.splitOnP_append_cons_of_forall_mem hcolumn _ rfl, List.map_cons, List.map_append,
    map_fst_zip_replicate, List.filter_append]
  simp

/-- **The entries of a line are found in their columns**, filled up with spaces or not. -/
theorem columns_row {entries : List (List Char)} (hne : entries ≠ []) :
    columns (rule (entries.map List.length)) (row entries)
      = entries.map (·.filter (· ≠ ' ')) := by
  induction entries with
  | nil => exact absurd rfl hne
  | cons e entries ih =>
    cases entries with
    | nil =>
      have hsingle : (e.zip (List.replicate e.length '-')).splitOnP (·.2 = '+')
          = [e.zip (List.replicate e.length '-')] :=
        List.splitOnP_eq_singleton fun x => snd_ne_cross
      simp only [row, rule, columns, List.map_cons, List.map_nil, List.intercalate_singleton]
      rw [hsingle, List.map_singleton, map_fst_zip_replicate]
    | cons d entries =>
      have hrow : row (e :: d :: entries) = e ++ [' ', '|', ' '] ++ row (d :: entries) :=
        List.intercalate_cons_cons
      have hrule : rule ((e :: d :: entries).map List.length)
          = List.replicate e.length '-' ++ ['-', '+', '-']
            ++ rule ((d :: entries).map List.length) :=
        List.intercalate_cons_cons
      rw [hrow, hrule, columns_append, ih (List.cons_ne_nil d entries)]
      rfl

theorem filter_of_notMem {cs : List Char} (h : ' ' ∉ cs) : cs.filter (· ≠ ' ') = cs :=
  List.filter_eq_self.mpr fun c hc => by simpa using fun hspace : c = ' ' => h (hspace ▸ hc)

/-- The spaces at the end of an entry are not part of it. -/
theorem filter_padRight {text : String} (htext : ' ' ∉ text.toList) (width : Nat) :
    (padRight width text).toList.filter (· ≠ ' ') = text.toList := by
  rw [padRight, replicate, String.toList_append, String.toList_ofList, List.filter_append,
    filter_of_notMem htext]
  simp

theorem bitDigit_inj {a b : Bool} (h : bitDigit a = bitDigit b) : a = b := by
  revert a b
  decide

@[simp] theorem toList_bitDigits (bs : List Bool) : (bitDigits bs).toList = bs.map bitDigit :=
  String.toList_ofList

/-- Only digits are found among digits. -/
theorem notMem_bitDigits {c : Char} (h0 : c ≠ '0') (h1 : c ≠ '1') (bs : List Bool) :
    c ∉ (bitDigits bs).toList := by
  rw [toList_bitDigits, List.mem_map]
  rintro ⟨b, -, rfl⟩
  cases b
  · exact h0 rfl
  · exact h1 rfl

theorem notMem_padRight {c : Char} {text : String} (hspace : c ≠ ' ') (htext : c ∉ text.toList)
    (width : Nat) : c ∉ (padRight width text).toList := by
  simp [padRight, replicate, htext, hspace]

/-- A text has no more characters than bytes. -/
theorem length_le_utf8ByteSize (text : String) : text.length ≤ text.utf8ByteSize := by
  obtain ⟨cs, rfl⟩ : ∃ cs, text = String.ofList cs := ⟨text.toList, String.ofList_toList.symm⟩
  rw [String.utf8ByteSize_ofList, String.length_ofList]
  induction cs with
  | nil => exact Nat.le_refl 0
  | cons c cs ih =>
    have hc := c.utf8Size_pos
    rw [List.length_cons, String.utf8Len_cons]
    omega

end Text

/-! ## 3. Sheets -/

/-- The lines that show one grid. -/
structure Sheet where
  /-- What the grid is of. -/
  title : List Char
  /-- The names of the variables and the labels of the columns. -/
  head : List Char
  /-- The separator. -/
  rule : List Char
  /-- A line for each row. -/
  body : List (List Char)

namespace Sheet

/-- The sheet with some lines. -/
def ofLines? : List (List Char) → Option Sheet
  | title :: head :: rule :: body => some ⟨title, head, rule, body⟩
  | _ => none

def lines (s : Sheet) : List (List Char) :=
  s.title :: s.head :: s.rule :: s.body

/-- The label of the row that a line shows. -/
def rowLabel (s : Sheet) (line : List Char) : List Char :=
  (Text.columns s.rule line).headD []

/-- The marks of a line. -/
def marks (s : Sheet) (line : List Char) : List (List Char) :=
  (Text.columns s.rule line).tail

def rowLabels (s : Sheet) : List (List Char) :=
  s.body.map s.rowLabel

def columnLabels (s : Sheet) : List (List Char) :=
  s.marks s.head

/-- The value of the first variable: what the title has after its last equals sign.  A map of less
than five variables does not have it. -/
def leading (size : Nat) (s : Sheet) : List Char :=
  if size < 5 then [] else ((s.title.reverse.takeWhile (· ≠ '=')).reverse).take 1

/-- The name that the title has before its last equals sign. -/
def leadingName? (s : Sheet) : Option Char :=
  (s.title.reverse.dropWhile (· ≠ '=')).tail.head?

/-- The cells of a sheet.  A cell is the digits that its place stands for, and its mark. -/
def cells (size : Nat) (s : Sheet) : List (List Char × List Char) :=
  s.body.flatMap fun line =>
    (s.columnLabels.zip (s.marks line)).map fun (label, mark) =>
      (s.leading size ++ s.rowLabel line ++ label, mark)

/-- Whether all lines below the title are as long as the separator. -/
def Aligned (s : Sheet) : Prop :=
  s.head.length = s.rule.length ∧ ∀ line ∈ s.body, line.length = s.rule.length

end Sheet

namespace KarnaughMap

variable {m : KarnaughMap} {g : Grid}

/-- The sheets of a text: with five variables there are two, one below the other. -/
def sheetsOf (size : Nat) (text : String) : List Sheet :=
  let ls := Text.lines text
  (if size < 5 then [ls] else [ls.take (ls.length / 2), ls.drop (ls.length / 2)]).filterMap
    Sheet.ofLines?

/-- The cells that are read from a text. -/
def cellsOf (size : Nat) (text : String) : List (List Char × List Char) :=
  (sheetsOf size text).flatMap (Sheet.cells size)

/-- The leading values in the line above a grid. -/
def leadingText (m : KarnaughMap) (g : Grid) : String :=
  String.join ((m.vars.toList.zip g.leading).map fun (name, value) =>
    ", " ++ name.toString ++ "=" ++ Text.bitDigits [value])

/-- What stands before the form in the line above a grid. -/
def titleStart (m : KarnaughMap) (g : Grid) : String :=
  "Karnaugh map for " ++ toString m.vars.size ++ " variables" ++ m.leadingText g

/-- The form in the line above a grid. -/
def titleEnd (m : KarnaughMap) : List Char :=
  [' ', '('] ++ m.form.name.toList ++ [')']

/-- The entries of a line: its label, and a text for each column. -/
def entries (g : Grid) (label : String) (column : List Bool → String) : List (List Char) :=
  (Text.padRight (labelWidth g) label).toList
    :: (grayCode g.columnNames.length).map fun bs => (column bs).toList

/-- The mark of a cell, filled up to the width of its column. -/
def markText (m : KarnaughMap) (g : Grid) (row column : List Bool) : String :=
  Text.padRight column.length (Text.bitDigits [m.marked g row column])

/-- The widths of the columns. -/
def widths (g : Grid) : List Nat :=
  labelWidth g :: (grayCode g.columnNames.length).map List.length

/-- The lines of a grid. -/
def sheet (m : KarnaughMap) (g : Grid) : Sheet where
  title := (m.titleStart g).toList ++ m.titleEnd
  head := Text.row (entries g (corner g) Text.bitDigits)
  rule := Text.rule (widths g)
  body := (grayCode g.rowNames.length).map fun row =>
    Text.row (entries g (Text.bitDigits row) (m.markText g row))

theorem toList_titleText (m : KarnaughMap) (g : Grid) :
    (m.titleText g).toList = (m.sheet g).title ++ ['\n'] := by
  have htitle : m.titleText g = m.titleStart g ++ " (" ++ m.form.name ++ ")\n" := rfl
  have hopen : " (".toList = [' ', '('] := rfl
  have hclose : ")\n".toList = [')', '\n'] := rfl
  rw [htitle, String.toList_append, String.toList_append, String.toList_append, hopen, hclose]
  simp [sheet, titleEnd]

theorem toList_columnsText {separator : String} {sep : List Char} (hsep : separator.toList = sep)
    (g : Grid) (label : String) (column : List Bool → String) :
    (label ++ separator ++ columnsText separator g column).toList
      = sep.intercalate
        (label.toList :: (grayCode g.columnNames.length).map fun bs => (column bs).toList) := by
  have hne : ((grayCode g.columnNames.length).map fun bs => (column bs).toList) ≠ [] :=
    mt List.map_eq_nil_iff.mp (grayCode_ne_nil _)
  rw [List.intercalate_cons_of_ne_nil hne, columnsText, String.toList_append,
    String.toList_append, String.toList_intercalate, List.map_map, hsep]
  rfl

theorem toList_headText (m : KarnaughMap) (g : Grid) :
    (headText g).toList = (m.sheet g).head ++ ['\n'] ++ ((m.sheet g).rule ++ ['\n']) := by
  have hhead : (Text.padRight (labelWidth g) (corner g) ++ " | "
      ++ columnsText " | " g Text.bitDigits).toList = (m.sheet g).head :=
    toList_columnsText rfl g _ _
  have hrule : (Text.replicate (labelWidth g) '-' ++ "-+-"
      ++ columnsText "-+-" g fun column => Text.replicate column.length '-').toList
        = (m.sheet g).rule := by
    have hsep : "-+-".toList = ['-', '+', '-'] := rfl
    rw [toList_columnsText hsep]
    simp [sheet, Text.rule, widths, Text.replicate, Function.comp_def]
  rw [← hhead, ← hrule, headText]
  simp only [String.toList_append, List.append_assoc]
  rfl

theorem toList_rowText (m : KarnaughMap) (g : Grid) (row : List Bool) :
    (m.rowText g row).toList
      = Text.row (entries g (Text.bitDigits row) (m.markText g row)) ++ ['\n'] := by
  rw [rowText, String.toList_append, toList_columnsText rfl]
  rfl

theorem toList_gridText (m : KarnaughMap) (g : Grid) :
    (m.gridText g).toList = (m.sheet g).lines.flatMap (· ++ ['\n']) := by
  have hrows : (String.join ((grayCode g.rowNames.length).map (m.rowText g))).toList
      = (m.sheet g).body.flatMap (· ++ ['\n']) := by
    rw [String.toList_join, List.flatMap_map, sheet, List.flatMap_map]
    exact congrArg (List.flatMap · _) (funext fun row => m.toList_rowText g row)
  rw [gridText, String.toList_append, String.toList_append, m.toList_titleText,
    m.toList_headText, hrows]
  simp only [Sheet.lines, List.flatMap_cons, List.append_assoc]

/-- **The text of a map is the lines of its sheets.** -/
theorem toList_text (m : KarnaughMap) :
    m.text.toList
      = ((m.grids.map m.sheet).flatMap Sheet.lines).flatMap (· ++ ['\n']) := by
  rw [text, String.toList_join, List.flatMap_map, List.flatMap_map, List.flatMap_assoc]
  exact congrArg (List.flatMap · _) (funext fun g => m.toList_gridText g)

/-! ## 4. The sheets of a map -/

/-- The number of variables before the grids. -/
def leadingSize (m : KarnaughMap) : Nat :=
  if m.vars.size < 5 then 0 else 1

/-- The number of variables of the rows. -/
def rowSize (m : KarnaughMap) : Nat :=
  (m.vars.size - m.leadingSize) / 2

/-- The number of variables of the columns. -/
def columnSize (m : KarnaughMap) : Nat :=
  m.vars.size - m.leadingSize - m.rowSize

theorem sizes (m : KarnaughMap) :
    m.leadingSize + m.rowSize + m.columnSize = m.vars.size ∧ 0 < m.rowSize ∧ 0 < m.columnSize := by
  have hrange := m.size_range
  have hleading : m.leadingSize ≤ 1 ∧ m.leadingSize + 2 ≤ m.vars.size := by
    unfold leadingSize
    split <;> omega
  unfold columnSize rowSize
  omega

/-- There is a grid for each list of leading values. -/
theorem grids_eq (m : KarnaughMap) : m.grids = (grayCode m.leadingSize).map m.gridUnder := by
  unfold grids leadingSize
  split <;> rfl

theorem exists_of_mem_grids (hg : g ∈ m.grids) :
    ∃ bs, bs.length = m.leadingSize ∧ m.gridUnder bs = g := by
  rw [grids_eq, List.mem_map] at hg
  obtain ⟨bs, hbs, rfl⟩ := hg
  exact ⟨bs, mem_grayCode.mp hbs, rfl⟩

theorem length_names (hg : g ∈ m.grids) :
    g.rowNames.length = m.rowSize ∧ g.columnNames.length = m.columnSize := by
  obtain ⟨bs, hbs, rfl⟩ := exists_of_mem_grids hg
  exact length_names_gridUnder (congrArg (m.vars.size - ·) hbs)

theorem mem_vars_of_mem_names {c : Char} (hg : g ∈ m.grids)
    (hc : c ∈ g.rowNames ∨ c ∈ g.columnNames) : c ∈ m.vars := by
  obtain ⟨bs, -, rfl⟩ := exists_of_mem_grids hg
  rcases hc with hc | hc
  · exact List.mem_of_mem_drop (List.mem_of_mem_take hc)
  · exact List.mem_of_mem_drop (List.mem_of_mem_drop hc)

theorem break_notMem_row {label : String} {column : List Bool → String}
    (hlabel : '\n' ∉ label.toList) (hcolumn : ∀ bs, '\n' ∉ (column bs).toList) :
    '\n' ∉ Text.row (entries g label column) := by
  intro hmem
  rcases Text.mem_intercalate_chars hmem with hsep | ⟨entry, hentry, hmem⟩
  · exact absurd hsep (by decide)
  · rcases List.mem_cons.mp hentry with rfl | hentry
    · exact Text.notMem_padRight (by decide) hlabel _ hmem
    · obtain ⟨bs, -, rfl⟩ := List.mem_map.mp hentry
      exact hcolumn bs hmem

theorem break_notMem_rule (ws : List Nat) : '\n' ∉ Text.rule ws := by
  intro hmem
  rcases Text.mem_intercalate_chars hmem with hsep | ⟨dashes, hdashes, hmem⟩
  · exact absurd hsep (by decide)
  · obtain ⟨w, -, rfl⟩ := List.mem_map.mp hdashes
    exact absurd (List.eq_of_mem_replicate hmem) (by decide)

section Break

/-! A line of a map has a line break only where a variable is one. -/

variable (hbreak : '\n' ∉ m.vars)
include hbreak

theorem break_notMem_leadingText : '\n' ∉ (m.leadingText g).toList := by
  rw [leadingText, String.toList_join, List.mem_flatMap]
  rintro ⟨text, htext, hmem⟩
  obtain ⟨⟨name, value⟩, hpair, rfl⟩ := List.mem_map.mp htext
  have hname : '\n' ≠ name := fun h => hbreak (h ▸ (List.of_mem_zip hpair).1)
  have hvalue : '\n' ≠ Text.bitDigit value := by cases value <;> decide
  simp [hname, hvalue] at hmem

theorem break_notMem_titleStart : '\n' ∉ (m.titleStart g).toList := by
  have hfor : '\n' ∉ "Karnaugh map for ".toList := by decide
  have hvariables : '\n' ∉ " variables".toList := by decide
  have hsize : '\n' ∉ (toString m.vars.size).toList := by
    have hrange := m.size_range
    have hcases : m.vars.size = 2 ∨ m.vars.size = 3 ∨ m.vars.size = 4 ∨ m.vars.size = 5 := by
      omega
    rcases hcases with h | h | h | h <;> rw [h] <;> decide
  unfold titleStart
  rw [String.toList_append, String.toList_append, String.toList_append]
  exact List.not_mem_append (List.not_mem_append (List.not_mem_append hfor hsize) hvariables)
    (break_notMem_leadingText hbreak)

theorem break_notMem_corner (hg : g ∈ m.grids) : '\n' ∉ (corner g).toList := by
  have hrow : '\n' ∉ g.rowNames := fun h => hbreak (mem_vars_of_mem_names hg (.inl h))
  have hcolumn : '\n' ∉ g.columnNames := fun h => hbreak (mem_vars_of_mem_names hg (.inr h))
  simp [corner, hrow, hcolumn]

theorem break_notMem_lines (hg : g ∈ m.grids) : ∀ l ∈ (m.sheet g).lines, '\n' ∉ l := by
  have hdigits : ∀ bs, '\n' ∉ (Text.bitDigits bs).toList :=
    Text.notMem_bitDigits (by decide) (by decide)
  have hend : '\n' ∉ m.titleEnd := by
    cases hform : m.form <;> rw [titleEnd, hform] <;> decide
  intro l hl
  rcases List.mem_cons.mp hl with rfl | hl
  · exact List.not_mem_append (break_notMem_titleStart hbreak) hend
  rcases List.mem_cons.mp hl with rfl | hl
  · exact break_notMem_row (break_notMem_corner hbreak hg) hdigits
  rcases List.mem_cons.mp hl with rfl | hl
  · exact break_notMem_rule _
  · obtain ⟨row, -, rfl⟩ := List.mem_map.mp hl
    exact break_notMem_row (hdigits row) fun bs => Text.notMem_padRight (by decide) (hdigits _) _

theorem lines_text : Text.lines m.text = (m.grids.map m.sheet).flatMap Sheet.lines := by
  refine Text.lines_eq m.toList_text fun l hl => ?_
  obtain ⟨s, hs, hl⟩ := List.mem_flatMap.mp hl
  obtain ⟨g, hg, rfl⟩ := List.mem_map.mp hs
  exact break_notMem_lines hbreak hg l hl

/-- **The sheets of a map are found in its text.** -/
theorem sheetsOf_text : sheetsOf m.vars.size m.text = m.grids.map m.sheet := by
  have hread : ∀ g, Sheet.ofLines? (m.sheet g).lines = some (m.sheet g) := fun _ => rfl
  rw [sheetsOf, lines_text hbreak]
  by_cases hsize : m.vars.size < 5
  · simp [grids, hsize, hread]
  -- with two sheets, one of them is half of the lines
  · have hhalf : (m.sheet (m.gridUnder [false])).lines.length
        = (m.sheet (m.gridUnder [true])).lines.length := by
      simp [Sheet.lines, sheet, gridUnder]
    simp only [grids, if_neg hsize, List.map_cons, List.map_nil, List.flatMap_cons,
      List.flatMap_nil, List.append_nil, List.length_append, ← hhalf, ← Nat.two_mul]
    rw [Nat.mul_div_cancel_left _ (by decide), List.take_left, List.drop_left]
    simp [hread]

end Break

/-! ## 5. What a sheet shows -/

/-- Entries that have room in their columns fill them. -/
theorem map_length_entries {label : String} {column : List Bool → String}
    (hlabel : label.length ≤ labelWidth g)
    (hcolumn : ∀ bs ∈ grayCode g.columnNames.length, (column bs).length = bs.length) :
    (entries g label column).map List.length = widths g := by
  have hfirst : (Text.padRight (labelWidth g) label).length = labelWidth g := by
    rw [Text.length_padRight, Nat.max_eq_left hlabel]
  rw [entries, widths, List.map_cons, List.map_map, String.length_toList, hfirst]
  refine congrArg _ (List.map_congr_left fun bs hbs => ?_)
  rw [Function.comp_apply, String.length_toList, hcolumn bs hbs]

theorem entries_ne_nil (g : Grid) (label : String) (column : List Bool → String) :
    entries g label column ≠ [] :=
  List.cons_ne_nil _ _

/-- The entries of the line with the column labels. -/
theorem map_length_headEntries (g : Grid) :
    (entries g (corner g) Text.bitDigits).map List.length = widths g :=
  map_length_entries (Text.length_le_utf8ByteSize (corner g)) fun bs _ => Text.length_bitDigits bs

/-- The entries of the line of a row. -/
theorem map_length_rowEntries (hg : g ∈ m.grids) {row : List Bool}
    (hrow : row ∈ grayCode g.rowNames.length) :
    (entries g (Text.bitDigits row) (m.markText g row)).map List.length = widths g := by
  refine map_length_entries ?_ fun bs hbs => ?_
  · have hcorner : g.rowNames.length ≤ (corner g).length := by
      simp [corner]
      omega
    rw [Text.length_bitDigits, mem_grayCode.mp hrow]
    exact Nat.le_trans hcorner (Text.length_le_utf8ByteSize (corner g))
  · have hpos := m.sizes.2.2
    rw [markText, Text.length_padRight, Text.length_bitDigits, mem_grayCode.mp hbs,
      (length_names hg).2]
    exact Nat.max_eq_left hpos

theorem space_notMem_bitDigits (bs : List Bool) : ' ' ∉ (Text.bitDigits bs).toList :=
  Text.notMem_bitDigits (by decide) (by decide) bs

theorem columnLabels_sheet (m : KarnaughMap) (g : Grid) :
    (m.sheet g).columnLabels = (grayCode g.columnNames.length).map (List.map Text.bitDigit) := by
  have hread := Text.columns_row (entries_ne_nil g (corner g) Text.bitDigits)
  rw [map_length_headEntries] at hread
  change (Text.columns (Text.rule (widths g)) (Text.row (entries g (corner g) _))).tail = _
  rw [hread, entries, List.map_cons, List.tail_cons, List.map_map]
  refine List.map_congr_left fun bs _ => ?_
  rw [Function.comp_apply, Text.filter_of_notMem (space_notMem_bitDigits bs),
    Text.toList_bitDigits]

/-- The line of a row shows the row and the marks of its cells. -/
theorem columns_body (hg : g ∈ m.grids) {row : List Bool}
    (hrow : row ∈ grayCode g.rowNames.length) :
    Text.columns (m.sheet g).rule (Text.row (entries g (Text.bitDigits row) (m.markText g row)))
      = row.map Text.bitDigit
        :: (grayCode g.columnNames.length).map fun column =>
          [Text.bitDigit (m.marked g row column)] := by
  have hread := Text.columns_row (entries_ne_nil g (Text.bitDigits row) (m.markText g row))
  rw [map_length_rowEntries hg hrow] at hread
  refine hread.trans ?_
  rw [entries, List.map_cons, List.map_map, Text.filter_padRight (space_notMem_bitDigits row),
    Text.toList_bitDigits]
  refine congrArg _ (List.map_congr_left fun column _ => ?_)
  rw [Function.comp_apply, markText, Text.filter_padRight (space_notMem_bitDigits _),
    Text.toList_bitDigits]
  rfl

theorem rowLabels_sheet (hg : g ∈ m.grids) :
    (m.sheet g).rowLabels = (grayCode g.rowNames.length).map (List.map Text.bitDigit) := by
  rw [Sheet.rowLabels, sheet, List.map_map]
  refine List.map_congr_left fun row hrow => ?_
  exact congrArg (List.headD · []) (columns_body hg hrow)

/-- What stands on both sides of the last equals sign is read. -/
theorem leading_eq {s : Sheet} {size : Nat} (hsize : ¬ size < 5) {before after : List Char}
    {name : Char} (htitle : s.title = before ++ name :: '=' :: after) (hafter : '=' ∉ after) :
    s.leading size = after.take 1 ∧ s.leadingName? = some name := by
  have hreverse : s.title.reverse = after.reverse ++ '=' :: name :: before.reverse := by
    simp [htitle]
  have hkeep : ∀ c ∈ after.reverse, decide (c ≠ '=') = true := fun c hc => by
    simpa using fun h : c = '=' => hafter (h ▸ List.mem_reverse.mp hc)
  rw [Sheet.leading, if_neg hsize, Sheet.leadingName?, hreverse,
    List.takeWhile_append_of_pos hkeep, List.dropWhile_append_of_pos hkeep]
  simp

theorem equals_notMem_titleEnd (m : KarnaughMap) : '=' ∉ m.titleEnd := by
  cases hform : m.form <;> rw [titleEnd, hform] <;> decide

/-- The title of one of two grids ends with the first variable, its value and the form. -/
theorem title_sheet (hsize : ¬ m.vars.size < 5) (hg : g ∈ m.grids) :
    ∃ before name b, m.vars.toList.head? = some name ∧ g.leading = [b] ∧
      (m.sheet g).title = before ++ name :: '=' :: Text.bitDigit b :: m.titleEnd := by
  obtain ⟨bs, hbs, rfl⟩ := exists_of_mem_grids hg
  rw [leadingSize, if_neg hsize] at hbs
  obtain ⟨b, rfl⟩ := List.length_eq_one_iff.mp hbs
  obtain ⟨name, names, hnames⟩ : ∃ name names, m.vars.toList = name :: names := by
    refine List.exists_cons_of_ne_nil fun hnil => hsize ?_
    rw [Ascending.size, hnil]
    decide
  have hleading : (m.leadingText (m.gridUnder [b])).toList
      = [',', ' ', name, '=', Text.bitDigit b] := by
    simp [leadingText, gridUnder, hnames]
  obtain ⟨start, hstart⟩ : ∃ start, (m.titleStart (m.gridUnder [b])).toList
      = start ++ (m.leadingText (m.gridUnder [b])).toList := ⟨_, String.toList_append⟩
  refine ⟨start ++ [',', ' '], name, b, by rw [hnames, List.head?_cons], rfl, ?_⟩
  simp only [sheet, hstart, hleading, List.append_assoc, List.cons_append, List.nil_append]

/-- **The title tells the value of the first variable.** -/
theorem leading_sheet (hg : g ∈ m.grids) :
    (m.sheet g).leading m.vars.size = g.leading.map Text.bitDigit ∧
      (m.vars.size = 5 → (m.sheet g).leadingName? = m.vars.toList.head?) := by
  by_cases hsize : m.vars.size < 5
  · obtain ⟨bs, hbs, rfl⟩ := exists_of_mem_grids hg
    rw [leadingSize, if_pos hsize] at hbs
    rw [Sheet.leading, if_pos hsize, List.eq_nil_of_length_eq_zero hbs]
    exact ⟨rfl, fun h => absurd h (Nat.ne_of_lt hsize)⟩
  · obtain ⟨before, name, b, hname, hb, htitle⟩ := title_sheet hsize hg
    have hafter : '=' ∉ Text.bitDigit b :: m.titleEnd := by
      have hdigit : '=' ≠ Text.bitDigit b := by cases b <;> decide
      simp [hdigit, equals_notMem_titleEnd]
    obtain ⟨hvalue, hread⟩ := leading_eq hsize htitle hafter
    rw [hvalue, hread, hname, hb]
    exact ⟨rfl, fun _ => rfl⟩

theorem cells_sheet (hg : g ∈ m.grids) :
    (m.sheet g).cells m.vars.size
      = (grayCode g.rowNames.length).flatMap fun row =>
        (grayCode g.columnNames.length).map fun column =>
          ((g.leading ++ row ++ column).map Text.bitDigit,
            [Text.bitDigit (m.marked g row column)]) := by
  have hbody : (m.sheet g).body = (grayCode g.rowNames.length).map fun row =>
    Text.row (entries g (Text.bitDigits row) (m.markText g row)) := rfl
  rw [Sheet.cells, hbody, List.flatMap_map, columnLabels_sheet, (leading_sheet hg).1]
  refine List.flatMap_congr fun row hrow => ?_
  rw [Sheet.rowLabel, Sheet.marks, columns_body hg hrow, List.tail_cons, List.zip_map',
    List.map_map]
  refine List.map_congr_left fun column _ => ?_
  simp

theorem aligned_sheet (hg : g ∈ m.grids) : (m.sheet g).Aligned := by
  constructor
  · exact (Text.length_row _).trans (by rw [map_length_headEntries, sheet])
  · intro line hline
    obtain ⟨row, hrow, rfl⟩ := List.mem_map.mp hline
    exact (Text.length_row _).trans (by rw [map_length_rowEntries hg hrow, sheet])

end KarnaughMap

/-! ## 6. All rows -/

/-- Whether some rows are all rows of one width.  They are as many, so each is there once. -/
structure AllRows (width : Nat) (rows : List (List Bool)) : Prop where
  length_eq : rows.length = RowIndex.count width
  mem_iff : ∀ bs, bs ∈ rows ↔ bs.length = width

namespace AllRows

variable {v w : Nat} {rows rows' : List (List Bool)}

theorem ofGrayCode (n : Nat) : AllRows n (grayCode n) :=
  ⟨length_grayCode n, fun _ => mem_grayCode⟩

/-- The rows of a width are made of those of its parts. -/
theorem product (h : AllRows v rows) (h' : AllRows w rows') :
    AllRows (v + w) (rows.flatMap fun bs => rows'.map (bs ++ ·)) := by
  constructor
  · simp [List.length_flatMap, h.length_eq, h'.length_eq, List.map_const', RowIndex.count_eq,
      Nat.pow_add]
  · intro bs
    simp only [List.mem_flatMap, List.mem_map, h.mem_iff, h'.mem_iff]
    constructor
    · rintro ⟨xs, hxs, ys, hys, rfl⟩
      rw [List.length_append, hxs, hys]
    · intro hbs
      refine ⟨bs.take v, ?_, bs.drop v, ?_, List.take_append_drop v bs⟩
      · rw [List.length_take, hbs]
        omega
      · rw [List.length_drop, hbs]
        omega

theorem nodup (h : AllRows w rows) : rows.Nodup := by
  have hbits : ((List.range (RowIndex.count w)).map (RowIndex.bits w)).Nodup := by
    refine List.nodup_range.map_on fun i hi j hj hij => ?_
    exact RowIndex.bits_inj (List.mem_range.mp hi) (List.mem_range.mp hj) hij
  have hsub : (List.range (RowIndex.count w)).map (RowIndex.bits w) ⊆ rows := by
    intro bs hbs
    obtain ⟨i, -, rfl⟩ := List.mem_map.mp hbs
    exact (h.mem_iff _).mpr (RowIndex.length_bits w i)
  have hperm := (List.subperm_of_subset hbits hsub).perm_of_length_le (by simp [h.length_eq])
  exact hperm.nodup_iff.mp hbits

/-- Each row index is of one row. -/
theorem filter_eq (h : AllRows w rows) (i : Nat) :
    rows.filter (· = RowIndex.bits w i) = [RowIndex.bits w i] := by
  have hmem : RowIndex.bits w i ∈ rows := (h.mem_iff _).mpr (RowIndex.length_bits w i)
  rw [List.filter_eq, List.count_eq_one_of_mem h.nodup hmem]
  rfl

end AllRows

/-! ## 7. The map shows the rows -/

namespace KarnaughMap

variable {m : KarnaughMap} {g : Grid}

/-- The places of the cells, in the order in which the text has them. -/
def places (m : KarnaughMap) : List (List Bool) :=
  (grayCode m.leadingSize).flatMap fun leading =>
    (grayCode m.rowSize).flatMap fun row =>
      (grayCode m.columnSize).map fun column => leading ++ row ++ column

theorem allRows_places (m : KarnaughMap) : AllRows m.vars.size m.places := by
  have hall := ((AllRows.ofGrayCode m.leadingSize).product (.ofGrayCode m.rowSize)).product
    (.ofGrayCode m.columnSize)
  rw [m.sizes.1] at hall
  simpa [places, List.flatMap_assoc, List.flatMap_map] using hall

theorem cellsOf_text (hbreak : '\n' ∉ m.vars) :
    cellsOf m.vars.size m.text = m.places.map fun bs =>
      (bs.map Text.bitDigit, [Text.bitDigit (m.cell? (RowIndex.ofBits bs) = some true)]) := by
  rw [cellsOf, sheetsOf_text hbreak, List.flatMap_map,
    List.flatMap_congr fun g hg => cells_sheet hg, grids_eq, List.flatMap_map, places,
    List.map_flatMap]
  refine List.flatMap_congr fun leading hleading => ?_
  have hg : m.gridUnder leading ∈ m.grids := by
    rw [grids_eq]
    exact List.mem_map_of_mem hleading
  rw [(length_names hg).1, (length_names hg).2, List.map_flatMap]
  refine List.flatMap_congr fun row _ => ?_
  rw [List.map_map]
  rfl

/-- A row index in as many binary digits as there are variables. -/
def address (size i : Nat) : List Char :=
  (Nat.toDigits 2 i).leftpad size '0'

theorem map_bitDigit_bits {size i : Nat} (hsize : 0 < size) (hi : i < 2 ^ size) :
    (RowIndex.bits size i).map Text.bitDigit = address size i := by
  have hne : RowIndex.bits size i ≠ [] := by
    rw [← List.length_pos_iff, RowIndex.length_bits]
    exact hsize
  rw [RowIndex.map_bitDigit_eq_leftpad hne, RowIndex.ofBits_bits, RowIndex.length_bits,
    RowIndex.count_eq, Nat.mod_eq_of_lt hi, address]

theorem filter_cellsOf_text (hbreak : '\n' ∉ m.vars) {i : Nat} (hi : i < 2 ^ m.vars.size) :
    (cellsOf m.vars.size m.text).filter (·.1 = address m.vars.size i)
      = [(address m.vars.size i, [Text.bitDigit (m.cell? i = some true)])] := by
  have hsize : 0 < m.vars.size := Nat.lt_of_lt_of_le Nat.two_pos m.size_range.1
  have hindex : RowIndex.ofBits (RowIndex.bits m.vars.size i) = i := by
    rw [RowIndex.ofBits_bits, RowIndex.count_eq, Nat.mod_eq_of_lt hi]
  have hplace : ∀ bs ∈ m.places, decide (bs.map Text.bitDigit = address m.vars.size i)
      = decide (bs = RowIndex.bits m.vars.size i) := by
    intro bs _
    rw [← map_bitDigit_bits hsize hi]
    exact decide_eq_decide.mpr (List.map_inj_right fun _ _ => Text.bitDigit_inj)
  rw [cellsOf_text hbreak, List.filter_map]
  simp only [Function.comp_def]
  rw [List.filter_congr hplace, (m.allRows_places).filter_eq, List.map_singleton,
    map_bitDigit_bits hsize hi, hindex]

theorem cell?_eq_some_true_iff {i : Nat} :
    m.cell? i = some true ↔ m.values[i]? = some m.form.target := by
  simp [cell?]

theorem isCircle_sheet (hg : g ∈ m.grids) :
    IsCircle (m.sheet g).rowLabels ∧ IsCircle (m.sheet g).columnLabels := by
  obtain ⟨-, hrow, hcolumn⟩ := m.sizes
  have hcircle : ∀ n, 0 < n → IsCircle ((grayCode n).map (List.map Text.bitDigit)) := by
    intro n hn
    obtain ⟨k, rfl⟩ := Nat.exists_eq_add_of_lt hn
    exact (isCircle_grayCode _).map fun _ _ => Text.bitDigit_inj
  rw [rowLabels_sheet hg, columnLabels_sheet, (length_names hg).1, (length_names hg).2]
  exact ⟨hcircle _ hrow, hcircle _ hcolumn⟩

/-- **A map shows each row once, in the cell of its labels.**  The cells are read from the text.
There are as many as rows, and one for each row index, marked where the row is a term of the form.
With five variables the title of a grid has the value of the first.  The labels of the rows and
those of the columns go around in a circle, and the lines of a grid are of one length. -/
theorem text_shows_rows {vs : Variables} {values : List Bool} (hsize : 2 ≤ vs.size ∧ vs.size ≤ 5)
    (hbreak : '\n' ∉ vs) (hvalues : values.length = 2 ^ vs.size) (form : NormalForm) :
    ∃ m, ofValues values vs form = .ok m ∧
      (cellsOf vs.size m.text).length = 2 ^ vs.size ∧
      (∀ i < 2 ^ vs.size, ∃ mark,
        (cellsOf vs.size m.text).filter (·.1 = address vs.size i) = [(address vs.size i, mark)] ∧
        (mark = ['1'] ∨ mark = ['0']) ∧ (mark = ['1'] ↔ values[i]? = some form.target)) ∧
      ∀ s ∈ sheetsOf vs.size m.text,
        (vs.size = 5 → s.leadingName? = vs.toList.head?) ∧
        IsCircle s.rowLabels ∧ IsCircle s.columnLabels ∧ s.Aligned := by
  have hrows : values.length = vs.rowCount := by rw [hvalues, vs.rowCount_eq]
  obtain ⟨m, hm, rfl, rfl, rfl⟩ : ∃ m, ofValues values vs form = .ok m ∧ m.vars = vs ∧
      m.values = values ∧ m.form = form := by
    refine ⟨⟨vs, values, form, hsize, hrows⟩, ?_, rfl, rfl, rfl⟩
    rw [ofValues, dif_pos hsize, dif_pos hrows]
  refine ⟨m, hm, ?_, fun i hi => ?_, fun s hs => ?_⟩
  · rw [cellsOf_text hbreak, List.length_map, m.allRows_places.length_eq, RowIndex.count_eq]
  · refine ⟨_, filter_cellsOf_text hbreak hi, ?_, ?_⟩
    · cases decide (m.cell? i = some true)
      · exact .inr rfl
      · exact .inl rfl
    · rw [← cell?_eq_some_true_iff]
      by_cases hmark : m.cell? i = some true
      · simp [hmark, Text.bitDigit]
      · simp [hmark, Text.bitDigit]
  · rw [sheetsOf_text hbreak] at hs
    obtain ⟨g, hg, rfl⟩ := List.mem_map.mp hs
    obtain ⟨hrow, hcolumn⟩ := isCircle_sheet hg
    exact ⟨(leading_sheet hg).2, hrow, hcolumn, aligned_sheet hg⟩

/-- Five names, the first of which is the sign before its own value, and four of which take more
than one byte or look like a part of the grid.  The row 10010 is not a maxterm. -/
theorem text_shows_rows_of_signs :
    ∃ m, ofValues ((List.range 32).map (· % 3 = 0)) (.ofNames ['∧', 'λ', '=', '|', '😀']) .pos
        = .ok m ∧
      (cellsOf 5 m.text).length = 32 ∧
      (cellsOf 5 m.text).filter (·.1 = ['1', '0', '0', '1', '0'])
        = [(['1', '0', '0', '1', '0'], ['0'])] := by
  obtain ⟨m, hm, hlength, hcells, -⟩ :=
    @text_shows_rows (.ofNames ['∧', 'λ', '=', '|', '😀']) ((List.range 32).map (· % 3 = 0))
      (by decide) (by decide) (by decide) .pos
  obtain ⟨mark, hfilter, hdigit, hmark⟩ := hcells 18 (by decide)
  have hvalue : ((List.range 32).map fun i => decide (i % 3 = 0))[18]? = some true := by decide
  rw [hvalue] at hmark
  obtain rfl : mark = ['0'] := hdigit.resolve_left fun h => absurd (hmark.mp h) (by decide)
  have haddress : address 5 18 = ['1', '0', '0', '1', '0'] := by decide
  exact ⟨m, hm, hlength, haddress ▸ hfilter⟩

end KarnaughMap

end TwoLevel
