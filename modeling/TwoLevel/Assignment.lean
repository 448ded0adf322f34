/-
# Assignments

An assignment gives values to names.  It is kept in increasing order of the names, one value
for each; a value given later replaces the one before (`get?_set`).  A row of a truth table is
the assignment whose values are the bits of its index (`ofRow`).
-/
import TwoLevel.RowIndex
import TwoLevel.Variables

namespace TwoLevel

/-- Values of names, in increasing order of the names. -/
structure Assignment where
  entries : List (Char × Bool)
  pairwise : (entries.map Prod.fst).Pairwise (· < ·)
  deriving DecidableEq, Repr

namespace Assignment

/-- No name has a value. -/
def empty : Assignment := ⟨[], .nil⟩

instance : Inhabited Assignment := ⟨empty⟩

/-- The value of a name, if it has one. -/
def get? (a : Assignment) (name : Char) : Option Bool :=
  a.entries.lookup name

/-! ## 1. Giving a value to a name -/

/-- The entries with a value put in the place of its name. -/
def setEntry (name : Char) (value : Bool) : List (Char × Bool) → List (Char × Bool)
  | [] => [(name, value)]
  | (n, v) :: rest =>
    if name < n then (name, value) :: (n, v) :: rest
    else if n < name then (n, v) :: setEntry name value rest
    else (name, value) :: rest

/-- The names are those from before and the new one. -/
theorem map_fst_setEntry (name : Char) (value : Bool) (entries : List (Char × Bool)) :
    (setEntry name value entries).map Prod.fst
      = Ascending.insertSorted name (entries.map Prod.fst) := by
  induction entries with
  | nil => rfl
  | cons e rest ih =>
    obtain ⟨n, v⟩ := e
    simp only [setEntry, List.map_cons, Ascending.insertSorted]
    split
    · rfl
    · split
      · simp [ih]
      · next h1 h2 => simp [Std.Trichotomous.trichotomous name n h1 h2]

/-- The assignment with a value for a name, whatever value it had. -/
def set (a : Assignment) (name : Char) (value : Bool) : Assignment :=
  ⟨setEntry name value a.entries,
    map_fst_setEntry name value a.entries ▸ Ascending.pairwise_insertSorted name a.pairwise⟩

/-- The first entry of a name gives its value. -/
theorem lookup_cons_eq_ite (name n : Char) (v : Bool) (rest : List (Char × Bool)) :
    ((n, v) :: rest).lookup name = if name = n then some v else rest.lookup name := by
  by_cases h : name = n
  · simp [h]
  · have hb : (name == n) = false := by simpa using h
    simp [List.lookup_cons, h, hb]

/-- Looking a name up after a value was set. -/
theorem lookup_setEntry (name other : Char) (value : Bool) (entries : List (Char × Bool)) :
    (setEntry name value entries).lookup other
      = if other = name then some value else entries.lookup other := by
  induction entries with
  | nil => rw [setEntry, lookup_cons_eq_ite]
  | cons e rest ih =>
    obtain ⟨n, v⟩ := e
    unfold setEntry
    split
    · exact lookup_cons_eq_ite other name value ((n, v) :: rest)
    · next h1 =>
      split
      · next h2 =>
        have hne : name ≠ n := fun e => Char.lt_irrefl n (e ▸ h2)
        rw [lookup_cons_eq_ite, lookup_cons_eq_ite, ih]
        by_cases h : other = name
        · simp [h, hne]
        · simp [h]
      · next h2 =>
        have e : name = n := Std.Trichotomous.trichotomous name n h1 h2
        subst e
        rw [lookup_cons_eq_ite, lookup_cons_eq_ite]
        by_cases h : other = name <;> simp [h]

/-- Setting a value changes the value of its name and no other. -/
@[simp] theorem get?_set (a : Assignment) (name other : Char) (value : Bool) :
    (a.set name value).get? other = if other = name then some value else a.get? other :=
  lookup_setEntry name other value a.entries

/-- The assignment of some values; of two values of one name the later counts. -/
def ofPairs (pairs : List (Char × Bool)) : Assignment :=
  pairs.foldl (fun a p => a.set p.1 p.2) empty

/-! ## 2. Rows of a truth table -/

/-- The row of an index: the first name takes the most significant bit. -/
def ofRow (vs : Variables) (index : Nat) : Assignment where
  entries := vs.toList.zip (RowIndex.bits vs.size index)
  pairwise := by
    rw [List.map_fst_zip (by simp [Ascending.size])]
    exact vs.pairwise

/-- The names that have a value. -/
def names (a : Assignment) : List Char := a.entries.map Prod.fst

/-- The values in increasing order of the names. -/
def values (a : Assignment) : List Bool := a.entries.map Prod.snd

@[simp] theorem names_ofRow (vs : Variables) (index : Nat) :
    (ofRow vs index).names = vs.toList :=
  List.map_fst_zip (by simp [Ascending.size])

@[simp] theorem values_ofRow (vs : Variables) (index : Nat) :
    (ofRow vs index).values = RowIndex.bits vs.size index :=
  List.map_snd_zip (by simp [Ascending.size])

example : (ofPairs [('b', true), ('a', true), ('b', false)]).entries
    = [('a', true), ('b', false)] := by decide

example : (ofRow (Variables.ofNames ['a', 'b']) 1).entries = [('a', false), ('b', true)] := by
  decide

end Assignment
end TwoLevel
