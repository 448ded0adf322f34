/-
# First occurrences

Repetitions are dropped and the first occurrence of each value stays where it is.  Two elements
count as repetitions when a key is the same for both.
-/

namespace TwoLevel

variable {α κ : Type} [DecidableEq κ]

/-- The elements whose key has not occurred before, in order. -/
def distinctOn (key : α → κ) : List α → List α
  | [] => []
  | x :: xs => x :: (distinctOn key xs).filter (key · ≠ key x)

/-- The values of a list, each at its first occurrence. -/
def distinct (xs : List κ) : List κ :=
  distinctOn id xs

example : distinct [2, 0, 2, 1, 0] = [2, 0, 1] := by decide

theorem mem_of_mem_distinctOn {key : α → κ} {xs : List α} {x : α}
    (h : x ∈ distinctOn key xs) : x ∈ xs := by
  induction xs with
  | nil => simp [distinctOn] at h
  | cons y ys ih =>
    rcases List.mem_cons.mp h with rfl | h
    · simp
    · exact List.mem_cons_of_mem _ (ih (List.mem_filter.mp h).1)

/-- No key is lost. -/
theorem mem_map_distinctOn {key : α → κ} {xs : List α} {k : κ} :
    k ∈ (distinctOn key xs).map key ↔ k ∈ xs.map key := by
  induction xs with
  | nil => simp [distinctOn]
  | cons y ys ih =>
    simp only [distinctOn, List.map_cons, List.mem_cons, ← ih]
    by_cases hk : k = key y
    · simp [hk]
    · simp only [hk, false_or, List.mem_map, List.mem_filter, decide_eq_true_eq]
      constructor
      · rintro ⟨x, ⟨hx, -⟩, rfl⟩
        exact ⟨x, hx, rfl⟩
      · rintro ⟨x, hx, rfl⟩
        exact ⟨x, ⟨hx, hk⟩, rfl⟩

/-- No key is left twice. -/
theorem pairwise_distinctOn (key : α → κ) (xs : List α) :
    (distinctOn key xs).Pairwise (key · ≠ key ·) := by
  induction xs with
  | nil => simp [distinctOn]
  | cons y ys ih =>
    refine List.pairwise_cons.mpr ⟨fun x hx => ?_, ih.filter _⟩
    exact Ne.symm (of_decide_eq_true (List.mem_filter.mp hx).2)

/-- Nothing is dropped where no key occurs twice. -/
theorem distinctOn_eq_self {key : α → κ} {xs : List α} (h : xs.Pairwise (key · ≠ key ·)) :
    distinctOn key xs = xs := by
  induction xs with
  | nil => rfl
  | cons y ys ih =>
    obtain ⟨hy, hys⟩ := List.pairwise_cons.mp h
    rw [distinctOn, ih hys, List.filter_eq_self.mpr fun x hx => decide_eq_true (hy x hx).symm]

@[simp] theorem mem_distinct {xs : List κ} {x : κ} : x ∈ distinct xs ↔ x ∈ xs := by
  simpa [distinct] using @mem_map_distinctOn _ _ _ id xs x

theorem nodup_distinct (xs : List κ) : (distinct xs).Nodup :=
  pairwise_distinctOn id xs

end TwoLevel
