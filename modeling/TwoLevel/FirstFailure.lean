/-
# Lists of attempts

Where each element of a list is worked on by a function that can fail, the first failure in the
order of the list is the failure of the whole (`collect_eq_error_iff`).
-/

namespace TwoLevel

variable {α β ε : Type}

/-- What is made of a result needs the result. -/
theorem map_eq_ok_iff {f : α → β} {r : Except ε α} {y : β} :
    r.map f = .ok y ↔ ∃ x, r = .ok x ∧ f x = y := by
  cases r <;> simp [Except.map]

theorem map_eq_error_iff {f : α → β} {r : Except ε α} {e : ε} :
    r.map f = .error e ↔ r = .error e := by
  cases r <;> simp [Except.map]

theorem mapError_eq_error_iff {ε' : Type} {f : ε → ε'} {r : Except ε α} {e' : ε'} :
    r.mapError f = .error e' ↔ ∃ e, r = .error e ∧ f e = e' := by
  cases r with
  | error e =>
    constructor
    · exact fun h => ⟨e, rfl, Except.error.inj h⟩
    · rintro ⟨_, h, rfl⟩
      cases h
      rfl
  | ok x => exact ⟨nofun, nofun⟩

/-- The results for all elements, or the first failure. -/
def collect (f : α → Except ε β) : List α → Except ε (List β)
  | [] => .ok []
  | x :: xs =>
    match f x with
    | .error e => .error e
    | .ok y => (collect f xs).map (y :: ·)

/-- The whole succeeds exactly when each element does, with the results in order. -/
theorem collect_eq_ok_iff {f : α → Except ε β} {xs : List α} {ys : List β} :
    collect f xs = .ok ys ↔ xs.map f = ys.map .ok := by
  induction xs generalizing ys with
  | nil => cases ys <;> simp [collect]
  | cons x xs ih =>
    cases hx : f x with
    | error e => cases ys <;> simp [collect, hx]
    | ok v =>
      cases ys with
      | nil => cases hc : collect f xs <;> simp [collect, hx, hc, Except.map]
      | cons y ys =>
        rw [List.map_cons, List.map_cons, List.cons.injEq, hx, Except.ok.injEq, ← ih]
        cases hc : collect f xs <;> simp [collect, hx, hc, Except.map]

/-- The whole fails with the failure of the first element that fails. -/
theorem collect_eq_error_iff {f : α → Except ε β} {xs : List α} {e : ε} :
    collect f xs = .error e ↔
      ∃ before x after, xs = before ++ x :: after ∧ f x = .error e ∧
        ∀ w ∈ before, ∃ y, f w = .ok y := by
  induction xs with
  | nil => simp [collect]
  | cons x xs ih =>
    constructor
    · intro h
      cases hx : f x with
      | error e' =>
        simp only [collect, hx, Except.error.injEq] at h
        exact ⟨[], x, xs, rfl, h ▸ hx, by simp⟩
      | ok v =>
        simp only [collect, hx, map_eq_error_iff] at h
        obtain ⟨before, w, after, rfl, hw, hb⟩ := ih.mp h
        refine ⟨x :: before, w, after, rfl, hw, fun u hu => ?_⟩
        rcases List.mem_cons.mp hu with rfl | hu
        · exact ⟨v, hx⟩
        · exact hb u hu
    · rintro ⟨before, w, after, hxs, hw, hb⟩
      cases before with
      | nil =>
        obtain ⟨rfl, rfl⟩ := List.cons.inj hxs
        simp [collect, hw]
      | cons b before =>
        obtain ⟨rfl, rfl⟩ := List.cons.inj hxs
        obtain ⟨v, hv⟩ := hb x (by simp)
        have h : collect f (before ++ w :: after) = .error e :=
          ih.mpr ⟨before, w, after, rfl, hw, fun u hu => hb u (by simp [hu])⟩
        simp [collect, hv, h, Except.map]

theorem collect_mapError {ε' : Type} (f : α → Except ε β) (g : ε → ε') (xs : List α) :
    collect (fun x => (f x).mapError g) xs = (collect f xs).mapError g := by
  induction xs with
  | nil => rfl
  | cons x xs ih =>
    rw [collect, collect, ih]
    cases f x with
    | error e => rfl
    | ok y => cases collect f xs <;> rfl

/-- A test that does not fail keeps the elements that satisfy it. -/
theorem filterM_eq_ok {test : α → Except ε Bool} {p : α → Bool} (h : ∀ x, test x = .ok (p x))
    (xs : List α) : xs.filterM test = .ok (xs.filter p) := by
  have hkept : ∀ kept, List.filterAuxM test xs kept = .ok ((xs.filter p).reverse ++ kept) := by
    induction xs with
    | nil => exact fun kept => rfl
    | cons x xs ih =>
      intro kept
      simp only [List.filterAuxM, h, bind, Except.bind, ih]
      cases hx : p x <;> simp [hx]
  simp only [List.filterM, hkept, bind, Except.bind, List.append_nil, List.reverse_reverse]
  rfl

/-- Where some element has a property, there is a first one. -/
theorem exists_first {p : α → Prop} {xs : List α} (h : ∃ x ∈ xs, p x) :
    ∃ before x after, xs = before ++ x :: after ∧ p x ∧ ∀ w ∈ before, ¬ p w := by
  induction xs with
  | nil => simp at h
  | cons y xs ih =>
    by_cases hy : p y
    · exact ⟨[], y, xs, rfl, hy, by simp⟩
    · obtain ⟨x, hx, hpx⟩ := h
      have hmem : x ∈ xs := by
        rcases List.mem_cons.mp hx with rfl | hx
        · exact absurd hpx hy
        · exact hx
      obtain ⟨before, x, after, rfl, hpx, hbefore⟩ := ih ⟨x, hmem, hpx⟩
      refine ⟨y :: before, x, after, rfl, hpx, fun w hw => ?_⟩
      rcases List.mem_cons.mp hw with rfl | hw
      · exact hy
      · exact hbefore w hw

theorem length_of_collect {f : α → Except ε β} {xs : List α} {ys : List β}
    (h : collect f xs = .ok ys) : ys.length = xs.length := by
  simpa using (congrArg List.length (collect_eq_ok_iff.mp h)).symm

end TwoLevel
