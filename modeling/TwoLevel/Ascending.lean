/-
# Ascending lists

A finite set is kept as the list of its elements in increasing order, each once.  Two sets with
the same elements are then the same value (`Ascending.ext_mem`).  Row indices and the names of
variables are both kept like this.
-/

namespace TwoLevel

/-- Lists in the same order with the same members are equal. -/
theorem eq_of_pairwise_of_mem_iff {α : Type} {r : α → α → Prop} (hr : ∀ a b, r a b → ¬ r b a)
    {xs ys : List α} (hx : xs.Pairwise r) (hy : ys.Pairwise r) (h : ∀ x, x ∈ xs ↔ x ∈ ys) :
    xs = ys := by
  have hne : ∀ {a b}, r a b → a ≠ b := fun {a b} hab e => hr a a (e ▸ hab) (e ▸ hab)
  refine List.Perm.eq_of_pairwise (fun a b _ _ hab hba => absurd hba (hr a b hab)) hx hy ?_
  exact (List.perm_ext_iff_of_nodup (hx.imp hne) (hy.imp hne)).mpr h

/-- A list in strictly increasing order. -/
structure Ascending (α : Type) [LT α] where
  toList : List α
  pairwise : toList.Pairwise (· < ·)
  deriving DecidableEq, Repr

namespace Ascending

variable {α : Type} [LT α]

/-! ## 1. Elements -/

instance : Membership α (Ascending α) := ⟨fun s x => x ∈ s.toList⟩

instance [DecidableEq α] (x : α) (s : Ascending α) : Decidable (x ∈ s) :=
  inferInstanceAs (Decidable (x ∈ s.toList))

theorem mem_def {x : α} {s : Ascending α} : x ∈ s ↔ x ∈ s.toList := Iff.rfl

/-- The set without elements. -/
def empty : Ascending α := ⟨[], .nil⟩

instance : Inhabited (Ascending α) := ⟨empty⟩

/-- The number of elements. -/
def size (s : Ascending α) : Nat := s.toList.length

/-- Whether there is no element. -/
def isEmpty (s : Ascending α) : Bool := s.toList.isEmpty

/-- The elements that satisfy a test. -/
def filter (p : α → Bool) (s : Ascending α) : Ascending α :=
  ⟨s.toList.filter p, s.pairwise.filter p⟩

@[simp] theorem toList_empty : (empty : Ascending α).toList = [] := rfl

@[simp] theorem not_mem_empty {x : α} : ¬ x ∈ (empty : Ascending α) := List.not_mem_nil

@[simp] theorem toList_filter (p : α → Bool) (s : Ascending α) :
    (s.filter p).toList = s.toList.filter p := rfl

@[simp] theorem mem_filter {p : α → Bool} {s : Ascending α} {x : α} :
    x ∈ s.filter p ↔ x ∈ s ∧ p x = true := List.mem_filter

/-! ## 2. Insertion -/

section Insert

variable [DecidableLT α]

/-- The list with an element put in its place; nothing changes when it is there already. -/
def insertSorted (x : α) : List α → List α
  | [] => [x]
  | y :: ys =>
    if x < y then x :: y :: ys
    else if y < x then y :: insertSorted x ys
    else y :: ys

theorem mem_or_eq_of_mem_insertSorted {x z : α} {ys : List α} (h : z ∈ insertSorted x ys) :
    z = x ∨ z ∈ ys := by
  induction ys with
  | nil => simpa [insertSorted] using h
  | cons y ys ih =>
    unfold insertSorted at h
    split at h
    · simpa using h
    · split at h
      · rcases List.mem_cons.mp h with rfl | h
        · simp
        · rcases ih h with h | h <;> simp [h]
      · exact .inr h

theorem mem_insertSorted_of_mem {x z : α} {ys : List α} (h : z ∈ ys) :
    z ∈ insertSorted x ys := by
  induction ys with
  | nil => simp at h
  | cons y ys ih =>
    unfold insertSorted
    split
    · simp [List.mem_cons.mp h]
    · split
      · rcases List.mem_cons.mp h with rfl | h
        · simp
        · simp [ih h]
      · exact h

theorem mem_insertSorted_self [Std.Trichotomous (· < · : α → α → Prop)]
    (x : α) (ys : List α) : x ∈ insertSorted x ys := by
  induction ys with
  | nil => simp [insertSorted]
  | cons y ys ih =>
    unfold insertSorted
    split
    · simp
    · split
      · simp [ih]
      · next hxy hyx => simp [Std.Trichotomous.trichotomous x y hxy hyx]

variable [Trans (· < · : α → α → Prop) (· < · : α → α → Prop) (· < · : α → α → Prop)]

theorem pairwise_insertSorted (x : α) {ys : List α} (h : ys.Pairwise (· < ·)) :
    (insertSorted x ys).Pairwise (· < ·) := by
  induction ys with
  | nil => simp [insertSorted]
  | cons y ys ih =>
    obtain ⟨hy, hys⟩ := List.pairwise_cons.mp h
    unfold insertSorted
    split
    · next hxy =>
      refine List.pairwise_cons.mpr ⟨fun z hz => ?_, h⟩
      rcases List.mem_cons.mp hz with rfl | hz
      · exact hxy
      · exact Trans.trans hxy (hy z hz)
    · split
      · next hyx =>
        refine List.pairwise_cons.mpr ⟨fun z hz => ?_, ih hys⟩
        rcases mem_or_eq_of_mem_insertSorted hz with rfl | hz
        · exact hyx
        · exact hy z hz
      · exact h

/-- The set with one more element. -/
def insert (x : α) (s : Ascending α) : Ascending α :=
  ⟨insertSorted x s.toList, pairwise_insertSorted x s.pairwise⟩

/-- The set of the elements of a list, in any order and with any repetitions. -/
def ofList (xs : List α) : Ascending α :=
  xs.foldr insert empty

/-- The elements of either set. -/
def union (s t : Ascending α) : Ascending α :=
  s.toList.foldr insert t

variable [Std.Trichotomous (· < · : α → α → Prop)]

@[simp] theorem mem_insert {x z : α} {s : Ascending α} : z ∈ s.insert x ↔ z = x ∨ z ∈ s := by
  constructor
  · exact mem_or_eq_of_mem_insertSorted
  · rintro (rfl | h)
    · exact mem_insertSorted_self _ _
    · exact mem_insertSorted_of_mem h

@[simp] theorem mem_foldr_insert {z : α} {xs : List α} {s : Ascending α} :
    z ∈ xs.foldr insert s ↔ z ∈ xs ∨ z ∈ s := by
  induction xs with
  | nil => simp
  | cons x xs ih => simp [ih, or_assoc]

@[simp] theorem mem_ofList {z : α} {xs : List α} : z ∈ ofList xs ↔ z ∈ xs := by
  simp [ofList]

@[simp] theorem mem_union {z : α} {s t : Ascending α} : z ∈ s.union t ↔ z ∈ s ∨ z ∈ t :=
  mem_foldr_insert

end Insert

/-! ## 3. Equality is having the same elements -/

variable [Std.Asymm (· < · : α → α → Prop)]

theorem nodup (s : Ascending α) : s.toList.Nodup := by
  refine s.pairwise.imp fun {a b} h => ?_
  rintro rfl
  exact Std.Asymm.asymm a a h h

/-- Two sets with the same elements are equal. -/
theorem ext_mem {s t : Ascending α} (h : ∀ x, x ∈ s ↔ x ∈ t) : s = t := by
  have hlists : s.toList = t.toList :=
    eq_of_pairwise_of_mem_iff Std.Asymm.asymm s.pairwise t.pairwise h
  cases s
  cases t
  cases hlists
  rfl

end Ascending

/-- A set of row indices. -/
abbrev TermSet := Ascending Nat

example : (Ascending.ofList [3, 1, 2, 3]).toList = [1, 2, 3] := by decide

end TwoLevel
