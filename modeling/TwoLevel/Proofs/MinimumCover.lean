/-
# How many implicants a form takes

A form is chosen from the prime implicants, and any patterns that make up the terms lie inside
some of these.  So the bounds of the choice against a rival family hold against all patterns.

Up to three variables the choice has the fewest members that there can be, and so it has when at
most two implicants are picked besides the essential ones.  From four variables on a cyclic
function may take one pattern more than it has to.

* `ArePrimes.rivals`: patterns that make up the terms are rivals of the prime implicants;
* `PrimeSearch.tight_of_run`: up to three variables every choice is tight;
* `Analysis.length_selected_le`: the number of implicants of a form against any patterns.
-/
import Mathlib.Tactic.IntervalCases
import TwoLevel.Proofs.DiscoveryOrder
import TwoLevel.Proofs.GreedyBound
import TwoLevel.Proofs.MinimalForm

namespace TwoLevel

/-! ## 1. Patterns against prime implicants -/

instance (terms : List Nat) (p : Pattern) : Decidable (p.IsImplicant terms) :=
  decidable_of_iff (∀ t ∈ p.terms, t ∈ terms)
    (forall_congr' fun _ => imp_congr_left Pattern.mem_terms)

namespace ArePrimes

variable {terms : List Nat} {width : Nat} {is : List Implicant}

theorem essential_eq_false {least : Nat} (h : ArePrimes terms width least is) {i : Implicant}
    (hi : i ∈ is) : i.essential = false := by
  rw [h.full i hi]
  rfl

/-- A pattern of terms, whatever its width, lies inside a prime implicant. -/
theorem exists_inside (h : ArePrimes terms width 0 is) (hwidth : width ≤ maxVariables)
    (hterms : ∀ t ∈ terms, t < RowIndex.count width) {p : Pattern} (hp : p.IsImplicant terms) :
    ∃ i ∈ is, ∀ t, p.covers t = true → i.covers t = true := by
  obtain ⟨q, hqw, hq⟩ := Pattern.exists_of_width hwidth fun t ht => hterms t (hp t ht)
  have himp : q.IsImplicant terms := fun t ht => hp t ((hq t).mp ht)
  obtain ⟨r, hrw, hr, hqr⟩ := Pattern.exists_isPrime (hqw.symm ▸ hterms) himp
  obtain ⟨i, hi, rfl⟩ := List.mem_map.mp ((h.mem r).mpr ⟨hrw.trans hqw, Nat.zero_le _, hr⟩)
  refine ⟨i, hi, fun t ht => ?_⟩
  exact (Implicant.covers_iff_of_eq_ofPattern (h.full i hi) t).mpr (hqr t ((hq t).mpr ht))

/-- **Patterns that make up the terms are rivals of the prime implicants.** -/
theorem rivals (h : ArePrimes terms width 0 is) (hwidth : width ≤ maxVariables)
    (hterms : ∀ t ∈ terms, t < RowIndex.count width) {ps : List Pattern}
    (hps : ∀ p ∈ ps, p.IsImplicant terms) (hcover : ∀ t ∈ terms, ∃ p ∈ ps, p.covers t = true) :
    Selection.Rivals (Candidate.ofList is) (.ofList terms) (ps.map .ofPattern) := by
  have hcovers : ∀ (p : Pattern) t, (Implicant.ofPattern p).covers t = true ↔ p.covers t = true :=
    fun p => Implicant.covers_iff_of_eq_ofPattern rfl
  constructor
  · intro t ht
    obtain ⟨p, hp, hpt⟩ := hcover t (Ascending.mem_ofList.mp ht)
    exact ⟨_, List.mem_map.mpr ⟨p, hp, rfl⟩, (hcovers p t).mpr hpt⟩
  · intro j hj t _ _
    obtain ⟨p, hp, rfl⟩ := List.mem_map.mp hj
    obtain ⟨i, hi, hinside⟩ := h.exists_inside hwidth hterms (hps p hp)
    obtain ⟨place, hplace⟩ := List.mem_iff_getElem?.mp hi
    exact ⟨⟨i, place⟩, Candidate.mem_ofList.mpr hplace,
      fun u _ hu => hinside u ((hcovers p u).mp hu)⟩

end ArePrimes

/-! ## 2. Up to three variables -/

namespace PrimeSearch

/-- Whether the choice for the terms is tight. -/
def tightOver (width : Nat) (terms : List Nat) : Bool :=
  match run terms width with
  | .ok s => (Selection.choose s.primes (.ofList terms)).tight
  | .error _ => false

/-- Functions are tried by number, the binary digits of which are the terms. -/
theorem tightOver_testBit {width : Nat} (hwidth : width ≤ 3) : ∀ n < 2 ^ RowIndex.count width,
    tightOver width ((List.range (RowIndex.count width)).filter n.testBit) = true := by
  interval_cases width <;> decide +kernel

/-- **Up to three variables every choice is tight.**  There are so few functions that all can be
tried. -/
theorem tight_of_run {terms : List Nat} {width : Nat} {s : PrimeSearch} (hwidth : width ≤ 3)
    (hsorted : terms.Pairwise (· < ·)) (hterms : ∀ t ∈ terms, t < RowIndex.count width)
    (h : run terms width = .ok s) :
    (Selection.choose s.primes (.ofList terms)).tight = true := by
  let n := Nat.ofBits fun t : Fin (RowIndex.count width) => decide (t.val ∈ terms)
  have hfilter : (List.range (RowIndex.count width)).filter n.testBit = terms := by
    refine eq_of_pairwise_of_mem_iff (fun _ _ => Nat.lt_asymm)
      (List.pairwise_lt_range.filter _) hsorted fun t => ?_
    rw [List.mem_filter, List.mem_range]
    constructor
    · rintro ⟨ht, hbit⟩
      rw [Nat.testBit_ofBits_lt _ t ht] at hbit
      exact of_decide_eq_true hbit
    · intro ht
      have hlt := hterms t ht
      exact ⟨hlt, by rw [Nat.testBit_ofBits_lt _ t hlt]; exact decide_eq_true ht⟩
  have htight := tightOver_testBit hwidth n (Nat.ofBits_lt_two_pow _)
  rwa [hfilter, tightOver, h] at htight

end PrimeSearch

/-! ## 3. The chosen implicants by their marks -/

namespace Selection

variable {is : List Implicant}

/-- Of implicants without marks, those are chosen with a mark that are essential. -/
theorem filter_essential_selected (h : ∀ i ∈ is, i.essential = false) (targets : TermSet) :
    (choose is targets).selected.filter (·.essential)
        = (choose is targets).essentials.map (·.candidate.implicant.mark true) ∧
      (choose is targets).selected.filter (!·.essential)
        = (choose is targets).picks.map (·.candidate.implicant) := by
  have hessential : ∀ i ∈ (choose is targets).essentials.map (·.candidate.implicant.mark true),
      i.essential = true := by
    intro i hi
    obtain ⟨e, -, rfl⟩ := List.mem_map.mp hi
    rfl
  have hpick : ∀ i ∈ (choose is targets).picks.map (·.candidate.implicant),
      i.essential = false := by
    intro i hi
    obtain ⟨p, hp, rfl⟩ := List.mem_map.mp hi
    exact h _ ((Candidate.placedIn_ofList is).mem
      (List.mem_filter.mp (candidate_mem_of_mem_picksOf hp)).1)
  rw [selected, List.filter_append, List.filter_append]
  constructor
  · rw [List.filter_eq_self.mpr hessential, List.filter_eq_nil_iff.mpr, List.append_nil]
    exact fun i hi => by simp [hpick i hi]
  · rw [List.filter_eq_nil_iff.mpr, List.nil_append, List.filter_eq_self.mpr]
    · exact fun i hi => by simp [hpick i hi]
    · exact fun i hi => by simp [hessential i hi]

theorem remaining_map_mark (targets : TermSet) (es : List Essential) :
    remaining targets (es.map (·.candidate.implicant.mark true))
      = remaining targets (es.map (·.candidate.implicant)) := by
  simp only [remaining, List.all_map]
  rfl

end Selection

namespace Cover

/-- The implicants of a cover that are marked as essential. -/
def essentials (c : Cover) : List Implicant := c.selected.filter (·.essential)

/-- The implicants of a cover that are not marked. -/
def picks (c : Cover) : List Implicant := c.selected.filter (!·.essential)

/-- The terms that the essential implicants of a cover leave open. -/
def openTerms (c : Cover) (terms : List Nat) : TermSet :=
  Selection.remaining (.ofList terms) c.essentials

end Cover

/-! ## 4. The forms of an analysis -/

namespace Minimization

variable {t : TruthTable} {form : NormalForm} {m : Minimization}

/-- The patterns of a cover make up the terms. -/
theorem covers_terms (h : ofTable t form = .ok m) (hno : ¬ ∃ b, ∀ v, t.value v = b) :
    (∀ j ∈ m.cover.selected, j.pattern.IsImplicant (t.terms form)) ∧
      ∀ s ∈ t.terms form, ∃ j ∈ m.cover.selected, j.pattern.covers s = true := by
  rw [selected_cover h hno]
  refine ⟨fun j hj => ((arePrimes h).of_mem_selected hj).2.1.1, fun s hs => ?_⟩
  have hopen : s ∉ (choice t form m).uncovered := by
    rw [uncovered_choice h]
    exact Ascending.not_mem_empty
  refine Classical.byContradiction fun hnone => hopen (Selection.mem_uncovered.mpr
    ⟨Ascending.mem_ofList.mpr hs, fun j hj => Bool.eq_false_iff.mpr fun hjs => hnone ⟨j, hj, ?_⟩⟩)
  exact (((arePrimes h).of_mem_selected hj).2.2 s).mp hjs

/-- The bounds for the choice are bounds for the cover. -/
theorem cover_bounds (h : ofTable t form = .ok m) (hno : ¬ ∃ b, ∀ v, t.value v = b)
    {ps : List Pattern} (hps : ∀ p ∈ ps, p.IsImplicant (t.terms form))
    (hcover : ∀ s ∈ t.terms form, ∃ p ∈ ps, p.covers s = true) :
    (t.vars.size ≤ 3 ∨ m.cover.picks.length ≤ 2 → m.cover.selected.length ≤ ps.length) ∧
      m.cover.essentials.length ≤ ps.length ∧
      ∀ g, (∀ i ∈ m.primes, i.countIn (m.cover.openTerms (t.terms form)) ≤ g) →
        (m.cover.picks.length : ℚ)
          ≤ harmonic g * (ps.length - m.cover.essentials.length) := by
  have hprimes := arePrimes h
  have hterms : ∀ s ∈ t.terms form, s < RowIndex.count t.vars.size :=
    fun s hs => TruthTable.lt_of_mem_terms hs
  have hrivals := hprimes.rivals t.size_le hterms hps hcover
  obtain ⟨hmarked, hothers⟩ := Selection.filter_essential_selected
    (fun i hi => hprimes.essential_eq_false hi) (.ofList (t.terms form))
  have hlength : ps.length = (ps.map Implicant.ofPattern).length := (List.length_map _).symm
  rw [Cover.openTerms, Cover.picks, Cover.essentials, selected_cover h hno, choice, hmarked,
    hothers, Selection.remaining_map_mark, List.length_map, List.length_map, hlength]
  refine ⟨fun hcase => hrivals.length_selected_le_of_tight ?_,
    (Nat.le_add_right _ _).trans hrivals.length_essentials_add_le,
    fun g hg => hrivals.length_picks_le hg⟩
  rcases hcase with hsize | htwo
  · exact PrimeSearch.tight_of_run hsize (t.pairwise_terms form) hterms (of_ofTable h).1
  · exact Selection.tight_of_length_le_two htwo

end Minimization

namespace Analysis

variable {source : String} {a : Analysis}

/-- **The number of implicants of a form, against any patterns that make up its terms.**  The
implicants of the form make them up.  Up to three variables, and wherever at most two implicants
are picked besides the essential ones, no fewer patterns do.  In general there are as many
patterns as essential implicants, and the picks are at most as many as the other patterns times a
harmonic number, that of the largest gain of a prime implicant when the picks begin. -/
theorem length_selected_le (h : parse source = .ok a)
    (hno : ¬ ∃ b, ∀ x ∈ a.table.values, x = b) (form : NormalForm) :
    ((∀ j ∈ (a.cover form).selected, j.pattern.IsImplicant (a.terms form)) ∧
      ∀ t ∈ a.terms form, ∃ j ∈ (a.cover form).selected, j.pattern.covers t = true) ∧
    ∀ ps : List Pattern, (∀ p ∈ ps, p.IsImplicant (a.terms form)) →
      (∀ t ∈ a.terms form, ∃ p ∈ ps, p.covers t = true) →
      (a.vars.size ≤ 3 ∨ (a.cover form).picks.length ≤ 2 →
        (a.cover form).selected.length ≤ ps.length) ∧
      (a.cover form).essentials.length ≤ ps.length ∧
      ∀ g, (∀ i ∈ a.primes form, i.countIn ((a.cover form).openTerms (a.terms form)) ≤ g) →
        ((a.cover form).picks.length : ℚ)
          ≤ harmonic g * (ps.length - (a.cover form).essentials.length) := by
  have hform := (of_parse h).2.2 form
  have hvalue := mt TruthTable.exists_forall_value_iff.mp hno
  exact ⟨Minimization.covers_terms hform hvalue,
    fun ps hps hcover => Minimization.cover_bounds hform hvalue hps hcover⟩

/-- A function with different values in its first two rows is not constant. -/
theorem not_constant (h : a.table.values.take 2 = [false, true]) :
    ¬ ∃ b, ∀ x ∈ a.table.values, x = b := by
  have hboth : ∀ b, b ∈ a.table.values.take 2 := by
    rw [h]
    decide
  rintro ⟨b, hb⟩
  exact Bool.false_ne_true ((hb _ (List.mem_of_mem_take (hboth false))).trans
    (hb _ (List.mem_of_mem_take (hboth true))).symm)

/-- The six rows of three variables that are not all alike take three patterns. -/
theorem length_selected_le_cyclic :
    ∃ a, parse "( a | b | c ) & ! ( a & b & c )" = .ok a ∧ a.vars.size = 3 ∧
      (a.cover .sop).selected.length ≤ 3 := by
  have hok : (parse "( a | b | c ) & ! ( a & b & c )").map
      (fun a => (a.terms .sop, a.table.values.take 2, a.vars.size))
      = .ok ([1, 2, 3, 4, 5, 6], [false, true], 3) := by rfl
  cases h : parse "( a | b | c ) & ! ( a & b & c )" with
  | error e => simp [h, Except.map] at hok
  | ok a =>
    simp only [h, Except.map, Except.ok.injEq, Prod.mk.injEq] at hok
    obtain ⟨hterms, hvalues, hsize⟩ := hok
    let ps : List Pattern := [⟨[.fixed false, .free, .fixed true], by decide⟩,
      ⟨[.free, .fixed true, .fixed false], by decide⟩,
      ⟨[.fixed true, .fixed false, .free], by decide⟩]
    have hps : ∀ p ∈ ps, p.IsImplicant (a.terms .sop) := by
      rw [hterms]
      decide
    have hcover : ∀ t ∈ a.terms .sop, ∃ p ∈ ps, p.covers t = true := by
      rw [hterms]
      decide
    obtain ⟨-, hbounds⟩ := length_selected_le h (not_constant hvalues) .sop
    exact ⟨a, rfl, hsize, (hbounds ps hps hcover).1 (.inl hsize.le)⟩

/-- Five implicants are chosen for a function of four variables that four patterns make up. -/
theorem exists_fewer_patterns :
    ∃ a, parse "! ( a & b ) & ! ( c & d ) & ( a | b | c | d )" = .ok a ∧
      (¬ ∃ b, ∀ x ∈ a.table.values, x = b) ∧
      ∃ ps : List Pattern, (∀ p ∈ ps, p.IsImplicant (a.terms .sop)) ∧
        (∀ t ∈ a.terms .sop, ∃ p ∈ ps, p.covers t = true) ∧
        ps.length < (a.cover .sop).selected.length := by
  have hok : (parse "! ( a & b ) & ! ( c & d ) & ( a | b | c | d )").map
      (fun a => (a.terms .sop, a.table.values.take 2, (a.cover .sop).selected.length))
      = .ok ([1, 2, 4, 5, 6, 8, 9, 10], [false, true], 5) := by rfl
  cases h : parse "! ( a & b ) & ! ( c & d ) & ( a | b | c | d )" with
  | error e => simp [h, Except.map] at hok
  | ok a =>
    simp only [h, Except.map, Except.ok.injEq, Prod.mk.injEq] at hok
    obtain ⟨hterms, hvalues, hlength⟩ := hok
    let ps : List Pattern := [⟨[.fixed false, .free, .fixed false, .fixed true], by decide⟩,
      ⟨[.free, .fixed false, .fixed true, .fixed false], by decide⟩,
      ⟨[.fixed true, .fixed false, .fixed false, .free], by decide⟩,
      ⟨[.fixed false, .fixed true, .free, .fixed false], by decide⟩]
    refine ⟨a, rfl, not_constant hvalues, ps, ?_, ?_, hlength ▸ by decide⟩
    · rw [hterms]
      decide
    · rw [hterms]
      decide

end Analysis
end TwoLevel
