/-
# Implicants with the rows of their patterns

An implicant keeps a pattern and a set of terms, and nothing in it says that the two agree.  They do
agree in every implicant that is made from single rows and from patterns by merging and marking, in
any order (`Implicant.Built`).  For such implicants merging is a question about sets: two cubes are
neighbours exactly when they have no row in common and their rows together are a cube.

* `Implicant.Built.covered_eq`: the terms are the rows of the pattern;
* `Pattern.merge?_of_union`: two disjoint cubes whose union is a cube have as many rows each, so
  they are its halves at some position;
* `Implicant.Built.combine_iff`: when two implicants merge;
* `Implicant.built_coherent`: all of it, for any two implicants that were built.
-/
import TwoLevel.Proofs.PrimeImplicants
import TwoLevel.Proofs.TableValues

namespace TwoLevel

/-! ## 1. Cubes whose union is a cube -/

/-- Two smaller powers of two make a power of two only when both are half of it. -/
theorem RowIndex.eq_succ_of_count_add_count {a b c : Nat} (ha : a < c) (hb : b < c)
    (h : count a + count b = count c) : c = a + 1 := by
  obtain ⟨half, rfl⟩ := Nat.exists_eq_succ_of_ne_zero (Nat.ne_zero_of_lt ha)
  have hale := Pattern.count_le_count (Nat.le_of_lt_succ ha)
  have hble := Pattern.count_le_count (Nat.le_of_lt_succ hb)
  rw [Nat.succ_eq_add_one, count_succ] at h
  have hcount : count a = count half := by omega
  rw [count_eq, count_eq] at hcount
  rw [(Nat.pow_right_inj (by decide)).mp hcount]

namespace Pattern

variable {p q r : Pattern}

/-- Patterns of one width with the same rows are equal. -/
theorem eq_of_covers_iff (hw : p.width = q.width)
    (h : ∀ t, p.covers t = true ↔ q.covers t = true) : p = q :=
  eq_of_inside hw (fun t => (h t).mp) (freeCount_le_of_inside hw.symm fun t => (h t).mpr)

/-- The rows of two disjoint cubes are counted apart. -/
theorem count_freeCount_of_union (hdisjoint : ∀ t, p.covers t = true → ¬ q.covers t = true)
    (hunion : ∀ t, r.covers t = true ↔ p.covers t = true ∨ q.covers t = true) :
    RowIndex.count p.freeCount + RowIndex.count q.freeCount = RowIndex.count r.freeCount := by
  have happend : (p.terms ++ q.terms).Nodup := by
    refine List.nodup_append.mpr ⟨p.nodup_terms, q.nodup_terms, fun s hs t ht e => ?_⟩
    exact hdisjoint s (mem_terms.mp hs) (e ▸ mem_terms.mp ht)
  have hperm : r.terms.Perm (p.terms ++ q.terms) :=
    (List.perm_ext_iff_of_nodup r.nodup_terms happend).mpr fun t => by simp [hunion]
  rw [← length_terms, ← length_terms, ← length_terms, hperm.length_eq, List.length_append]

/-- A cube that is not all of a larger one has fewer free positions. -/
theorem freeCount_lt_of_inside (hw : p.width = r.width) (h : p.Inside r) (hnot : ¬ r.Inside p) :
    p.freeCount < r.freeCount := by
  refine Nat.lt_of_not_le fun hle => hnot ?_
  rw [eq_of_inside hw h hle]
  exact fun _ ht => ht

/-- **Two disjoint cubes whose union is a cube are neighbours, and merge into it.** -/
theorem merge?_of_union (hpw : p.width = r.width) (hqw : q.width = r.width)
    (hdisjoint : ∀ t, p.covers t = true → ¬ q.covers t = true)
    (hunion : ∀ t, r.covers t = true ↔ p.covers t = true ∨ q.covers t = true) :
    p.merge? q = some r := by
  have hp : p.Inside r := fun t ht => (hunion t).mpr (.inl ht)
  have hq : q.Inside r := fun t ht => (hunion t).mpr (.inr ht)
  have hnotp : ¬ r.Inside p := by
    obtain ⟨t, ht⟩ := q.exists_covers
    exact fun h => hdisjoint t (h t (hq t ht)) ht
  have hnotq : ¬ r.Inside q := by
    obtain ⟨t, ht⟩ := p.exists_covers
    exact fun h => hdisjoint t ht (h t (hp t ht))
  have hcount := RowIndex.eq_succ_of_count_add_count (freeCount_lt_of_inside hpw hp hnotp)
    (freeCount_lt_of_inside hqw hq hnotq) (count_freeCount_of_union hdisjoint hunion)
  -- the neighbour of `p` on the way to `r` is `q`, since there is only one step
  have hne : p ≠ r := fun e => hnotp (e ▸ fun _ ht => ht)
  obtain ⟨n, r', hm, hr'⟩ := exists_merge?_of_inside hpw hp hne
  have hr'w : r'.width = r.width := (width_of_merge? hm).trans hpw
  obtain rfl : r' = r := eq_of_inside hr'w hr'
    (Nat.le_of_eq (hcount.trans (freeCount_of_merge? hm).symm))
  have hnq : n = q := by
    refine eq_of_covers_iff ((widths_of_merge? hm).2.trans hqw.symm) fun t => ?_
    have hboth := (covers_of_merge? hm t).symm.trans (hunion t)
    constructor
    · intro hn
      refine (hboth.mp (.inr hn)).resolve_left fun hpt => ?_
      rw [covers_eq_false_of_merge? hm hpt] at hn
      cases hn
    · exact fun hqt => (hboth.mpr (.inr hqt)).resolve_left fun hpt => hdisjoint t hpt hqt
  exact hnq ▸ hm

end Pattern

/-! ## 2. Implicants that were built -/

namespace Implicant

/-- The implicants that are made from single rows and from patterns, by merging and marking. -/
inductive Built : Implicant → Prop where
  | ofTerm {term width : Nat} {i : Implicant} (h : Implicant.ofTerm term width = .ok i) : Built i
  | ofPattern (p : Pattern) : Built (.ofPattern p)
  | combine {i j m : Implicant} (hi : Built i) (hj : Built j) (h : i.combine j = .ok (some m)) :
    Built m
  | mark {i : Implicant} (hi : Built i) (essential : Bool) : Built (i.mark essential)

variable {i j m : Implicant}

/-- Two implicants merge when their patterns do, and only if they have one width. -/
theorem combine_eq_ok_some_iff :
    i.combine j = .ok (some m) ↔ i.pattern.width = j.pattern.width ∧ i.merge? j = some m := by
  by_cases hw : i.pattern.width = j.pattern.width
  · rw [combine_eq_merge? hw, Except.ok.injEq]
    exact (and_iff_right hw).symm
  · simp [combine, Pattern.combine, hw, Except.map]

/-- **The terms of an implicant that was built are the rows of its pattern.**  By induction on how
it was built. -/
theorem Built.covered_eq (h : Built i) : i.covered = (Implicant.ofPattern i.pattern).covered := by
  induction h with
  | ofTerm h =>
    obtain ⟨p, -, rfl⟩ := ofTerm_eq_ok_iff.mp h
    rfl
  | ofPattern p => rfl
  | @combine i j m _ _ h ihi ihj =>
    have hm := (combine_eq_ok_some_iff.mp h).2
    obtain ⟨r, hr, rfl⟩ := Option.map_eq_some_iff.mp hm
    refine Ascending.ext_mem fun t => ?_
    rw [mem_covered_ofPattern, ofCovered, ihi, ihj, Ascending.mem_union, mem_covered_ofPattern,
      mem_covered_ofPattern]
    exact (Pattern.covers_of_merge? hr t).symm
  | mark _ _ ih => exact ih

theorem Built.toList_covered (h : Built i) : i.covered.toList = i.pattern.terms := by
  rw [h.covered_eq]
  rfl

theorem Built.mem_covered (h : Built i) {t : Nat} : t ∈ i.covered ↔ i.pattern.covers t = true := by
  rw [h.covered_eq, mem_covered_ofPattern]

theorem Built.covers_eq (h : Built i) (t : Nat) : i.covers t = i.pattern.covers t := by
  rw [Bool.eq_iff_iff, covers, decide_eq_true_eq, h.mem_covered]

/-! ## 3. When they merge -/

/-- A set is the rows of a pattern when it has them as its members. -/
theorem toList_eq_terms_iff {s : TermSet} {p : Pattern} :
    s.toList = p.terms ↔ ∀ t, t ∈ s ↔ p.covers t = true := by
  constructor
  · intro h t
    rw [Ascending.mem_def, h, Pattern.mem_terms]
  · intro h
    have hset : s = (ofPattern p).covered :=
      Ascending.ext_mem fun t => (h t).trans mem_covered_ofPattern.symm
    rw [hset]
    rfl

/-- **Implicants that were built merge exactly when they have no term in common and their terms
together are the rows of a pattern.** -/
theorem Built.combine_iff (hi : Built i) (hj : Built j) (hw : i.pattern.width = j.pattern.width)
    {p : Pattern} (hp : p.width = i.pattern.width) :
    (∃ m, i.combine j = .ok (some m) ∧ m.pattern = p) ↔
      (∀ t, t ∈ i.covered → t ∉ j.covered) ∧ (i.covered.union j.covered).toList = p.terms := by
  simp only [toList_eq_terms_iff, Ascending.mem_union, hi.mem_covered, hj.mem_covered]
  constructor
  · rintro ⟨m, hm, rfl⟩
    have hpattern := pattern_of_merge? (combine_eq_ok_some_iff.mp hm).2
    refine ⟨fun t ht => ?_, fun t => (Pattern.covers_of_merge? hpattern t).symm⟩
    rw [Pattern.covers_eq_false_of_merge? hpattern ht]
    exact Bool.false_ne_true
  · rintro ⟨hdisjoint, hunion⟩
    have hpattern := Pattern.merge?_of_union hp.symm (hw.symm.trans hp.symm) hdisjoint
      fun t => (hunion t).symm
    refine ⟨.ofCovered p (i.covered.union j.covered), combine_eq_ok_some_iff.mpr ⟨hw, ?_⟩, rfl⟩
    rw [merge?, hpattern]
    rfl

/-- What is merged has the terms of both sides, and is not marked. -/
theorem eq_ofCovered_of_merge? (h : i.merge? j = some m) :
    m = ofCovered m.pattern (i.covered.union j.covered) := by
  obtain ⟨p, -, rfl⟩ := Option.map_eq_some_iff.mp h
  rfl

/-- A pattern of another width may be the one whose rows are the terms together. -/
theorem Built.exists_terms_iff (hi : Built i) (hj : Built j)
    (hw : i.pattern.width = j.pattern.width) :
    (∃ p : Pattern, (i.covered.union j.covered).toList = p.terms) ↔
      ∃ p : Pattern, p.width = i.pattern.width ∧ (i.covered.union j.covered).toList = p.terms := by
  refine ⟨?_, fun ⟨p, _, hp⟩ => ⟨p, hp⟩⟩
  rintro ⟨q, hq⟩
  have hlt : ∀ t, q.covers t = true → t < RowIndex.count i.pattern.width := by
    intro t ht
    rcases Ascending.mem_union.mp ((toList_eq_terms_iff.mp hq t).mpr ht) with h | h
    · exact Pattern.lt_of_covers (hi.mem_covered.mp h)
    · exact hw ▸ Pattern.lt_of_covers (hj.mem_covered.mp h)
  obtain ⟨p, hp, hpq⟩ := Pattern.exists_of_width i.pattern.length_le hlt
  refine ⟨p, hp, toList_eq_terms_iff.mpr fun t => ?_⟩
  rw [hpq, toList_eq_terms_iff.mp hq]

/-- **Implicants are coherent however they were built.**  The terms of an implicant that is made
from single rows and patterns by merging and marking are the rows of its pattern, two for each
choice of values at a free position.

Two such implicants fail to combine only if their widths differ.  Else they merge exactly when they
have no term in common and their terms together are the rows of some pattern; what is merged has
these terms, it has the pattern of its width with these rows, it is not marked, and the other order
gives the same. -/
theorem built_coherent {i j : Implicant} (hi : Built i) (hj : Built j) :
    i.covered.toList = i.pattern.terms ∧ i.covered.size = 2 ^ i.pattern.freeCount ∧
    (∀ t, i.covers t = i.pattern.covers t) ∧
    (i.pattern.width ≠ j.pattern.width →
      i.combine j = .error (.widthsDiffer i.pattern.width j.pattern.width)) ∧
    (i.pattern.width = j.pattern.width →
      (∃ r, i.combine j = .ok r) ∧
      ((∃ m, i.combine j = .ok (some m)) ↔
        (∀ t, t ∈ i.covered → t ∉ j.covered) ∧
          ∃ p : Pattern, (i.covered.union j.covered).toList = p.terms) ∧
      ∀ m, i.combine j = .ok (some m) →
        m.covered = i.covered.union j.covered ∧
        m.pattern.width = i.pattern.width ∧ m.pattern.terms = m.covered.toList ∧
        (∀ p : Pattern, p.width = i.pattern.width → p.terms = m.covered.toList → m.pattern = p) ∧
        m.essential = false ∧ j.combine i = .ok (some m)) := by
  refine ⟨hi.toList_covered, ?_, hi.covers_eq, fun hw => ?_, fun hw => ⟨?_, ?_, fun m hm => ?_⟩⟩
  · rw [Ascending.size, hi.toList_covered, Pattern.length_terms, RowIndex.count_eq]
  · simp [combine, Pattern.combine, hw, Except.map]
  · exact ⟨_, combine_eq_merge? hw⟩
  · rw [hi.exists_terms_iff hj hw]
    constructor
    · rintro ⟨m, hm⟩
      have hwidth := Pattern.width_of_merge? (pattern_of_merge? (combine_eq_ok_some_iff.mp hm).2)
      obtain ⟨hdisjoint, hunion⟩ := (hi.combine_iff hj hw hwidth).mp ⟨m, hm, rfl⟩
      exact ⟨hdisjoint, m.pattern, hwidth, hunion⟩
    · rintro ⟨hdisjoint, p, hp, hunion⟩
      obtain ⟨m, hm, -⟩ := (hi.combine_iff hj hw hp).mpr ⟨hdisjoint, hunion⟩
      exact ⟨m, hm⟩
  · have hmerge := (combine_eq_ok_some_iff.mp hm).2
    have hwidth := Pattern.width_of_merge? (pattern_of_merge? hmerge)
    have hterms := (Built.combine hi hj hm).toList_covered
    have heq := eq_ofCovered_of_merge? hmerge
    refine ⟨congrArg covered heq, hwidth, hterms.symm, fun p hp hpt => ?_, congrArg essential heq,
      combine_eq_ok_some_iff.mpr ⟨hw.symm, (merge?_comm j i).trans hmerge⟩⟩
    refine Pattern.eq_of_covers_iff (hwidth.trans hp.symm) fun t => ?_
    rw [← Pattern.mem_terms, ← Pattern.mem_terms, hpt, hterms]

/-- Two rows of three variables are merged and the result is marked; it merges with the cube beside
it into one that is not marked, and not with itself nor with the cube around both. -/
theorem built_coherent_of_marked :
    ∃ i j k : Implicant, Built i ∧ Built j ∧ Built k ∧ i.essential = true ∧
      i.pattern.text = "00-" ∧ i.covered.toList = [0, 1] ∧ j.pattern.text = "01-" ∧
      k.pattern.text = "0--" ∧ i.combine j = .ok (some k) ∧ j.combine i = .ok (some k) ∧
      (¬ ∃ m, i.combine i = .ok (some m)) ∧ ¬ ∃ m, i.combine k = .ok (some m) := by
  let lower : Implicant := ofPattern ⟨[.fixed false, .fixed false, .free], by decide⟩
  let upper : Implicant := ofPattern ⟨[.fixed false, .fixed true, .free], by decide⟩
  let both : Implicant := ofPattern ⟨[.fixed false, .free, .free], by decide⟩
  have hzero : Built (ofPattern ⟨[.fixed false, .fixed false, .fixed false], by decide⟩) :=
    .ofTerm (show Implicant.ofTerm 0 3 = .ok _ from rfl)
  have hone : Built (ofPattern ⟨[.fixed false, .fixed false, .fixed true], by decide⟩) :=
    .ofTerm (show Implicant.ofTerm 1 3 = .ok _ from rfl)
  have hi : Built (lower.mark true) := .mark (.combine hzero hone rfl) true
  have hj : Built upper := .ofPattern _
  have hmerge : (lower.mark true).combine upper = .ok (some both) := rfl
  have hk : Built both := .combine hi hj hmerge
  obtain ⟨hterms, -, -, -, hbeside⟩ := built_coherent hi hj
  obtain ⟨-, -, hmerged⟩ := hbeside rfl
  obtain ⟨-, -, -, -, -, hcomm⟩ := hmerged both hmerge
  refine ⟨lower.mark true, upper, both, hi, hj, hk, rfl, by decide, hterms.trans (by decide),
    by decide, by decide, hmerge, hcomm, fun h => ?_, fun h => ?_⟩
  · exact (((built_coherent hi hi).2.2.2.2 rfl).2.1.mp h).1 0 (by decide) (by decide)
  · exact (((built_coherent hi hk).2.2.2.2 rfl).2.1.mp h).1 0 (by decide) (by decide)

end Implicant
end TwoLevel
