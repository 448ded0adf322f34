/-
# Choosing implicants that cover the terms

First each implicant is chosen that is the only one to cover some term.  Then, as long as it
helps, the implicant is chosen that covers most of the terms still open; of several the first in
the list wins.  Places in the list tell implicants apart, since it may hold one twice.

* `bestOf?_eq_none_iff`: the choice ends only when no candidate covers an open term;
* `mem_uncovered`: what is left open is covered by no chosen implicant.
-/
import TwoLevel.Distinct
import TwoLevel.Implicant
import TwoLevel.Log

namespace TwoLevel

/-- An implicant and its place in the list. -/
structure Candidate where
  implicant : Implicant
  place : Nat
  deriving DecidableEq, Repr, Inhabited

namespace Candidate

/-- The implicants of a list with their places. -/
def ofList (is : List Implicant) : List Candidate :=
  is.zipIdx.map fun (i, place) => ⟨i, place⟩

/-- The number of terms of a set that the candidate covers. -/
def gain (c : Candidate) (terms : TermSet) : Nat :=
  (c.implicant.covered.filter (· ∈ terms)).size

end Candidate

/-- A candidate that is the only one to cover a term. -/
structure Essential where
  term : Nat
  candidate : Candidate
  deriving DecidableEq, Repr

/-- A candidate that was chosen for the number of open terms it covers. -/
structure Pick where
  candidate : Candidate
  gain : Nat
  deriving DecidableEq, Repr

/-- The implicants chosen to cover the terms of a set. -/
structure Selection where
  targets : TermSet
  essentials : List Essential
  picks : List Pick
  deriving Repr

namespace Selection

/-! ## 1. Essential implicants -/

/-- The only candidate that covers a term, if there is only one. -/
def sole? (cs : List Candidate) (term : Nat) : Option Candidate :=
  match cs.filter (·.implicant.covers term) with
  | [c] => some c
  | _ => none

/-- The candidates that alone cover some term, in the order of the first such term. -/
def essentialsOf (cs : List Candidate) (targets : TermSet) : List Essential :=
  distinctOn (·.candidate.place)
    (targets.toList.filterMap fun t => (sole? cs t).map fun c => ⟨t, c⟩)

theorem covers_of_sole? {cs : List Candidate} {t : Nat} {c : Candidate}
    (h : sole? cs t = some c) : c ∈ cs ∧ c.implicant.covers t = true := by
  unfold sole? at h
  split at h
  · next d hd =>
    cases h
    exact List.mem_filter.mp (hd ▸ List.mem_singleton.mpr rfl)
  · cases h

/-! ## 2. The best candidate -/

/-- The terms of a set that none of the implicants covers. -/
def remaining (targets : TermSet) (is : List Implicant) : TermSet :=
  targets.filter fun t => is.all fun i => !i.covers t

/-- The candidate that covers most of the open terms, the first of several, if any covers one. -/
def bestOf? (need : TermSet) : List Candidate → Option Pick
  | [] => none
  | c :: cs =>
    match bestOf? need cs with
    | some p => if p.gain ≤ c.gain need then some ⟨c, c.gain need⟩ else some p
    | none => if 0 < c.gain need then some ⟨c, c.gain need⟩ else none

/-- There is no best candidate exactly when no candidate covers an open term. -/
theorem bestOf?_eq_none_iff {need : TermSet} {cs : List Candidate} :
    bestOf? need cs = none ↔ ∀ c ∈ cs, c.gain need = 0 := by
  induction cs with
  | nil => simp [bestOf?]
  | cons c cs ih =>
    unfold bestOf?
    cases h : bestOf? need cs with
    | none =>
      have hcs := ih.mp h
      by_cases hc : 0 < c.gain need
      · have : c.gain need ≠ 0 := by omega
        simp [hc, this]
      · have : c.gain need = 0 := by omega
        simpa [this] using hcs
    | some p =>
      have hcs : ¬ ∀ d ∈ cs, d.gain need = 0 := fun e => by simp [ih.mpr e] at h
      have hc : ¬ ∀ d ∈ c :: cs, d.gain need = 0 := fun e => hcs fun d hd => e d (by simp [hd])
      simp only [hc, iff_false]
      split <;> simp

/-! ## 3. The choice -/

/-- At most `count` picks, each the best for the terms that are open when it is made. -/
def picksOf (count : Nat) (cs : List Candidate) (need : TermSet) : List Pick :=
  match count with
  | 0 => []
  | count + 1 =>
    match bestOf? need cs with
    | none => []
    | some p =>
      p :: picksOf count (cs.filter (·.place ≠ p.candidate.place))
        (remaining need [p.candidate.implicant])

/-- The choice among a list of implicants.  Each pick closes a term, so there are no more of them
than open terms. -/
def choose (is : List Implicant) (targets : TermSet) : Selection :=
  let cs := Candidate.ofList is
  let essentials := essentialsOf cs targets
  let need := remaining targets (essentials.map (·.candidate.implicant))
  let others := cs.filter fun c => c.place ∉ essentials.map (·.candidate.place)
  ⟨targets, essentials, picksOf need.size others need⟩

/-- The chosen implicants: the essential ones, marked, and then the picks as they are. -/
def selected (s : Selection) : List Implicant :=
  s.essentials.map (·.candidate.implicant.mark true) ++ s.picks.map (·.candidate.implicant)

/-- The terms that no chosen implicant covers. -/
def uncovered (s : Selection) : TermSet :=
  remaining s.targets s.selected

@[simp] theorem mem_uncovered {s : Selection} {t : Nat} :
    t ∈ s.uncovered ↔ t ∈ s.targets ∧ ∀ i ∈ s.selected, i.covers t = false := by
  simp [uncovered, remaining]

/-- What is told about a choice: each step, and the terms that are left open. -/
def log (s : Selection) : List Message :=
  s.essentials.map (fun e =>
    ⟨.debug, "Essential implicant for term " ++ toString e.term ++ ": "
      ++ (e.candidate.implicant.mark true).text⟩) ++
  s.picks.map (fun p =>
    ⟨.debug, "Selected implicant " ++ p.candidate.implicant.text ++ " covering "
      ++ toString p.gain ++ " more terms"⟩) ++
  if s.uncovered.isEmpty then []
  else [⟨.warn, "Incomplete cover, remaining terms: " ++ Text.commaList s.uncovered.toList⟩]

end Selection
end TwoLevel
