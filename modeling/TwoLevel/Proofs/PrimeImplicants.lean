/-
# The search finds the prime implicants

The rows of an implicant of some terms are all terms; it is prime when no cube with more rows
has this property.  The search is proved exact by one invariant on generations, `IsCubes`: the
members are the implicants with a given number of free positions, each once, and each with all
rows of its pattern.

* `Generation.IsCubes.offspring`: the next generation has the invariant again, since each cube
  has two halves and they merge into it;
* `Generation.IsCubes.mem_unmerged`: a member is left over exactly when it is prime;
* `PrimeSearch.exists_run`: the search succeeds, and what it finds are the prime implicants.
-/
import TwoLevel.PrimeSearch
import TwoLevel.Proofs.Cube

namespace TwoLevel

/-! ## 1. Implicants of a list of terms -/

namespace Pattern

/-- Every row of the pattern is one of the terms. -/
def IsImplicant (terms : List Nat) (p : Pattern) : Prop := ∀ t, p.covers t = true → t ∈ terms

/-- An implicant such that no pattern with more rows is one. -/
def IsPrime (terms : List Nat) (p : Pattern) : Prop :=
  p.IsImplicant terms ∧ ∀ q : Pattern, p.Inside q → ¬ q.Inside p → ¬ q.IsImplicant terms

theorem IsImplicant.of_inside {terms : List Nat} {p q : Pattern} (h : q.IsImplicant terms)
    (hpq : p.Inside q) : p.IsImplicant terms :=
  fun t ht => h t (hpq t ht)

/-- A merged pattern is an implicant when both sides are. -/
theorem isImplicant_of_merge? {terms : List Nat} {p q r : Pattern} (h : p.merge? q = some r) :
    r.IsImplicant terms ↔ p.IsImplicant terms ∧ q.IsImplicant terms := by
  simp only [IsImplicant, covers_of_merge? h]
  constructor
  · exact fun hr => ⟨fun t ht => hr t (.inl ht), fun t ht => hr t (.inr ht)⟩
  · rintro ⟨hp, hq⟩ t (ht | ht)
    · exact hp t ht
    · exact hq t ht

theorem inside_of_merge? {p q r : Pattern} (h : p.merge? q = some r) : p.Inside r :=
  fun t ht => (covers_of_merge? h t).mpr (.inl ht)

theorem freeCount_le_of_inside {p q : Pattern} (hw : p.width = q.width) (h : p.Inside q) :
    p.freeCount ≤ q.freeCount :=
  ((inside_iff_loosens hw).mp h).count_le

/-- A merged pattern does not fit into what it was merged from. -/
theorem not_inside_of_merge? {p q r : Pattern} (h : p.merge? q = some r) : ¬ r.Inside p := by
  intro hr
  have hle := freeCount_le_of_inside (widths_of_merge? h).1.symm hr
  have hcount := freeCount_of_merge? h
  omega

/-- An implicant that can be merged with another one is not prime. -/
theorem not_isPrime_of_merge? {terms : List Nat} {p q r : Pattern} (h : p.merge? q = some r)
    (hq : q.IsImplicant terms) : ¬ p.IsPrime terms := by
  rintro ⟨hp, hmax⟩
  exact hmax r (inside_of_merge? h) (not_inside_of_merge? h)
    ((isImplicant_of_merge? h).mpr ⟨hp, hq⟩)

/-- **An implicant that is not prime has a neighbour to merge with.**  The larger cube may be
of another width, but its rows are terms, so there is one of the same width. -/
theorem exists_merge?_of_not_isPrime {terms : List Nat} {p : Pattern}
    (hterms : ∀ t ∈ terms, t < RowIndex.count p.width) (hp : p.IsImplicant terms)
    (hnot : ¬ p.IsPrime terms) :
    ∃ neighbour r, p.merge? neighbour = some r ∧ neighbour.IsImplicant terms := by
  have hlarger : ∃ q : Pattern, p.Inside q ∧ ¬ q.Inside p ∧ q.IsImplicant terms := by
    refine Classical.byContradiction fun hnone => hnot ⟨hp, fun q hpq hqp hq => ?_⟩
    exact hnone ⟨q, hpq, hqp, hq⟩
  obtain ⟨q, hpq, hqp, hq⟩ := hlarger
  obtain ⟨q', hw', hq'⟩ := exists_of_width p.length_le fun t ht => hterms t (hq t ht)
  have hpq' : p.Inside q' := fun t ht => (hq' t).mpr (hpq t ht)
  have hne : p ≠ q' := by
    rintro rfl
    exact hqp fun t ht => (hq' t).mpr ht
  obtain ⟨neighbour, r, hm, hr⟩ := exists_merge?_of_inside hw'.symm hpq' hne
  refine ⟨neighbour, r, hm, fun t ht => hq t ((hq' t).mp (hr t ?_))⟩
  exact inside_of_merge? (merge?_comm hm) t ht

/-! ## 2. Patterns of single rows -/

theorem eq_map_fixed_of_fits {ss : List Slot} {bs : List Bool} (hc : ss.count .free = 0)
    (h : Slot.fits ss bs = true) : ss = bs.map .fixed := by
  induction ss generalizing bs with
  | nil => rw [List.eq_nil_of_length_eq_zero (Slot.length_of_fits h)]; rfl
  | cons s ss ih =>
    obtain ⟨b, bs, rfl, hb, hbs⟩ := Slot.exists_of_fits_cons h
    cases s with
    | free => simp at hc
    | fixed v =>
      have hv : v = b := of_decide_eq_true hb
      rw [List.map_cons, hv, ← ih (by simpa using hc) hbs]

theorem fits_map_fixed {bs cs : List Bool} : Slot.fits (bs.map .fixed) cs = true ↔ cs = bs := by
  induction bs generalizing cs with
  | nil => cases cs <;> simp [Slot.fits]
  | cons b bs ih =>
    cases cs with
    | nil => simp [Slot.fits]
    | cons c cs =>
      rw [List.map_cons, Slot.fits_cons, ih, Slot.admits, decide_eq_true_eq, List.cons.injEq,
        eq_comm (a := b)]

/-- The pattern of a row covers that row only. -/
theorem covers_of_ofTerm {term width : Nat} {p : Pattern} (h : ofTerm term width = .ok p)
    (t : Nat) : p.covers t = true ↔ t = term := by
  obtain ⟨-, ht, hs⟩ := ofTerm_eq_ok_iff.mp h
  simp only [covers_iff, hs, fits_map_fixed]
  constructor
  · rintro ⟨_, rfl, rfl⟩
    rw [RowIndex.ofBits_bits, Nat.mod_eq_of_lt ht]
  · rintro rfl
    exact ⟨_, rfl, by rw [RowIndex.ofBits_bits, Nat.mod_eq_of_lt ht]⟩

theorem width_of_ofTerm {term width : Nat} {p : Pattern} (h : ofTerm term width = .ok p) :
    p.width = width := by
  obtain ⟨-, -, hs⟩ := ofTerm_eq_ok_iff.mp h
  simp [Pattern.width, hs]

theorem freeCount_of_ofTerm {term width : Nat} {p : Pattern} (h : ofTerm term width = .ok p) :
    p.freeCount = 0 := by
  obtain ⟨-, -, hs⟩ := ofTerm_eq_ok_iff.mp h
  rw [freeCount, hs, List.count_eq_zero]
  intro hmem
  obtain ⟨b, -, hb⟩ := List.mem_map.mp hmem
  cases hb

/-- A pattern without free positions is the pattern of each of its rows. -/
theorem ofTerm_of_freeCount {p : Pattern} {t : Nat} (hc : p.freeCount = 0)
    (ht : p.covers t = true) : ofTerm t p.width = .ok p := by
  obtain ⟨bs, hbs, rfl⟩ := covers_iff.mp ht
  refine ofTerm_eq_ok_iff.mpr ⟨p.length_le, lt_of_covers ht, ?_⟩
  have hlen : bs.length = p.width := Slot.length_of_fits hbs
  rw [← hlen, RowIndex.bits_ofBits]
  exact eq_map_fixed_of_fits hc hbs

end Pattern

/-! ## 3. Implicants with all rows of their pattern -/

namespace Implicant

open Pattern (IsImplicant)

@[simp] theorem pattern_ofPattern (p : Pattern) : (ofPattern p).pattern = p := rfl

/-- An implicant with all rows of its pattern covers what the pattern covers. -/
theorem covers_iff_of_eq_ofPattern {i : Implicant} (h : i = ofPattern i.pattern) (t : Nat) :
    i.covers t = true ↔ i.pattern.covers t = true := by
  rw [h, covers, decide_eq_true_eq]
  exact mem_covered_ofPattern

/-- Implicants with all rows of their patterns merge as the patterns do. -/
theorem merge?_ofPattern (p q : Pattern) :
    (ofPattern p).merge? (ofPattern q) = (p.merge? q).map ofPattern := by
  cases h : p.merge? q with
  | none => simp [merge?, h]
  | some r =>
    have hset : (ofPattern p).covered.union (ofPattern q).covered = (ofPattern r).covered := by
      refine Ascending.ext_mem fun t => ?_
      simp only [Ascending.mem_union, mem_covered_ofPattern]
      exact (Pattern.covers_of_merge? h t).symm
    simp only [merge?, pattern_ofPattern, h, Option.map_some, hset]
    rfl

/-- It does not matter which of two implicants is merged with the other. -/
theorem merge?_comm (i j : Implicant) : i.merge? j = j.merge? i := by
  have hpattern : i.pattern.merge? j.pattern = j.pattern.merge? i.pattern :=
    Option.ext fun _ => ⟨Pattern.merge?_comm, Pattern.merge?_comm⟩
  have hunion : i.covered.union j.covered = j.covered.union i.covered :=
    Ascending.ext_mem fun t => by simp only [Ascending.mem_union, or_comm]
  rw [merge?, merge?, hpattern, hunion]

/-- No implicant is its own neighbour. -/
theorem merge?_self (i : Implicant) : i.merge? i = none := by
  refine Option.eq_none_iff_forall_ne_some.mpr fun m hm => ?_
  have hpattern := pattern_of_merge? hm
  refine Pattern.not_inside_of_merge? hpattern fun t ht => ?_
  simpa using (Pattern.covers_of_merge? hpattern t).mp ht

/-- The implicant of a row has all rows of its pattern. -/
theorem ofTerm_eq_ok_iff {term width : Nat} {i : Implicant} :
    ofTerm term width = .ok i ↔ ∃ p, Pattern.ofTerm term width = .ok p ∧ i = ofPattern p := by
  have hset : ∀ {p}, Pattern.ofTerm term width = .ok p →
      ofCovered p (Ascending.ofList [term]) = ofPattern p := by
    intro p hp
    have : Ascending.ofList [term] = (ofPattern p).covered := by
      refine Ascending.ext_mem fun t => ?_
      simp [Pattern.covers_of_ofTerm hp]
    rw [this]
    rfl
  cases h : Pattern.ofTerm term width with
  | error e => simp [ofTerm, h, Except.map]
  | ok p => simp [ofTerm, h, Except.map, hset h, eq_comm]

end Implicant

/-! ## 4. One generation -/

/-- Of two elements of a list, one comes before the other. -/
theorem mem_pairs_or_mem_pairs {α : Type} {xs : List α} {x y : α} (hx : x ∈ xs) (hy : y ∈ xs)
    (hne : x ≠ y) : (x, y) ∈ pairs xs ∨ (y, x) ∈ pairs xs := by
  induction xs with
  | nil => cases hx
  | cons z zs ih =>
    simp only [pairs, List.mem_append, List.mem_map, Prod.mk.injEq]
    rcases List.mem_cons.mp hx with rfl | hx'
    · rcases List.mem_cons.mp hy with rfl | hy'
      · exact absurd rfl hne
      · exact .inl (.inl ⟨y, hy', rfl, rfl⟩)
    · rcases List.mem_cons.mp hy with rfl | hy'
      · exact .inr (.inl ⟨x, hx', rfl, rfl⟩)
      · rcases ih hx' hy' with h | h
        · exact .inl (.inr h)
        · exact .inr (.inr h)

namespace Generation

open Pattern (IsImplicant IsPrime)

/-- The patterns of the members, in order. -/
def patterns (g : Generation) : List Pattern := g.members.map (·.pattern)

theorem mem_merges {g : Generation} {m : Merge} :
    m ∈ g.merges ↔
      (m.left, m.right) ∈ pairs g.members ∧ m.left.merge? m.right = some m.product := by
  simp only [merges, List.mem_filterMap, Option.map_eq_some_iff]
  constructor
  · rintro ⟨⟨i, j⟩, hij, k, hk, rfl⟩
    exact ⟨hij, hk⟩
  · rintro ⟨hij, hk⟩
    exact ⟨(m.left, m.right), hij, m.product, hk, rfl⟩

/-- The implicants of one pattern cover together what one of them covers. -/
theorem mem_coveredBy {is : List Implicant} {p : Pattern} {t : Nat} :
    t ∈ coveredBy is p ↔ ∃ i ∈ is, i.pattern = p ∧ t ∈ i.covered := by
  have hfold : ∀ ss : List TermSet, t ∈ ss.foldr Ascending.union .empty ↔ ∃ s ∈ ss, t ∈ s := by
    intro ss
    induction ss with
    | nil => simp
    | cons s ss ih => simp [ih]
  simp only [coveredBy, hfold, List.mem_map, List.mem_filter, decide_eq_true_eq]
  constructor
  · rintro ⟨_, ⟨i, ⟨hi, hp⟩, rfl⟩, ht⟩
    exact ⟨i, hi, hp, ht⟩
  · rintro ⟨i, hi, hp, ht⟩
    exact ⟨_, ⟨i, ⟨hi, hp⟩, rfl⟩, ht⟩

/-- **The invariant of the search.**  The members of a generation are the implicants of its
number of free positions, each once, and each with all rows of its pattern. -/
structure IsCubes (terms : List Nat) (width : Nat) (g : Generation) : Prop where
  full : ∀ i ∈ g.members, i = .ofPattern i.pattern
  nodup : g.patterns.Nodup
  mem : ∀ p : Pattern,
    p ∈ g.patterns ↔ p.width = width ∧ p.freeCount = g.number ∧ p.IsImplicant terms

namespace IsCubes

variable {terms : List Nat} {width : Nat} {g : Generation}

theorem ofPattern_mem (h : IsCubes terms width g) {p : Pattern} :
    Implicant.ofPattern p ∈ g.members ↔ p ∈ g.patterns := by
  constructor
  · exact fun hp => List.mem_map.mpr ⟨_, hp, rfl⟩
  · intro hp
    obtain ⟨i, hi, rfl⟩ := List.mem_map.mp hp
    exact h.full i hi ▸ hi

/-- A merge of two members merges their patterns. -/
theorem exists_of_mem_merges (h : IsCubes terms width g) {m : Merge} (hm : m ∈ g.merges) :
    m.left.pattern ∈ g.patterns ∧ m.right.pattern ∈ g.patterns ∧
      m.left.pattern.merge? m.right.pattern = some m.product.pattern ∧
      m.product = .ofPattern m.product.pattern := by
  obtain ⟨hpair, hmerge⟩ := mem_merges.mp hm
  obtain ⟨hl, hr⟩ := mem_of_mem_pairs hpair
  refine ⟨List.mem_map.mpr ⟨_, hl, rfl⟩, List.mem_map.mpr ⟨_, hr, rfl⟩,
    Implicant.pattern_of_merge? hmerge, ?_⟩
  rw [h.full _ hl, h.full _ hr, Implicant.merge?_ofPattern, Option.map_eq_some_iff] at hmerge
  obtain ⟨p, -, hp⟩ := hmerge
  rw [← hp]
  rfl

/-- Members with the pattern of two neighbours are merged, in the order of the members. -/
theorem exists_merge (h : IsCubes terms width g) {p q r : Pattern} (hp : p ∈ g.patterns)
    (hq : q ∈ g.patterns) (hm : p.merge? q = some r) :
    ⟨.ofPattern p, .ofPattern q, .ofPattern r⟩ ∈ g.merges ∨
      ⟨.ofPattern q, .ofPattern p, .ofPattern r⟩ ∈ g.merges := by
  have hne : Implicant.ofPattern p ≠ .ofPattern q := by
    intro e
    have hpq : p = q := congrArg Implicant.pattern e
    refine Pattern.not_inside_of_merge? hm fun t ht => ?_
    simpa [← hpq] using (Pattern.covers_of_merge? hm t).mp ht
  have hpair := mem_pairs_or_mem_pairs (h.ofPattern_mem.mpr hp) (h.ofPattern_mem.mpr hq) hne
  refine hpair.imp (fun hpair => ?_) (fun hpair => ?_)
  · exact mem_merges.mpr ⟨hpair, by simp [Implicant.merge?_ofPattern, hm]⟩
  · exact mem_merges.mpr ⟨hpair, by simp [Implicant.merge?_ofPattern, Pattern.merge?_comm hm]⟩

/-- Both sides of a merge are members when it is an implicant with one more free position. -/
theorem mem_of_merge? (h : IsCubes terms width g) {p q r : Pattern} (hm : p.merge? q = some r)
    (hw : r.width = width) (hc : r.freeCount = g.number + 1) (hr : r.IsImplicant terms) :
    p ∈ g.patterns ∧ q ∈ g.patterns := by
  have hpc := Pattern.freeCount_of_merge? hm
  have hqc := Pattern.freeCount_of_merge? (Pattern.merge?_comm hm)
  obtain ⟨hpw, hqw⟩ := Pattern.widths_of_merge? hm
  obtain ⟨hp, hq⟩ := (Pattern.isImplicant_of_merge? hm).mp hr
  exact ⟨(h.mem p).mpr ⟨hpw.trans hw, by omega, hp⟩, (h.mem q).mpr ⟨hqw.trans hw, by omega, hq⟩⟩

/-- The merged patterns are the implicants with one more free position. -/
theorem mem_products (h : IsCubes terms width g) (r : Pattern) :
    r ∈ (g.merges.map (·.product)).map (·.pattern) ↔
      r.width = width ∧ r.freeCount = g.number + 1 ∧ r.IsImplicant terms := by
  simp only [List.map_map, List.mem_map, Function.comp_apply]
  constructor
  · rintro ⟨m, hm, rfl⟩
    obtain ⟨hl, hr, hmerge, -⟩ := h.exists_of_mem_merges hm
    obtain ⟨hlw, hlc, hli⟩ := (h.mem _).mp hl
    obtain ⟨-, -, hri⟩ := (h.mem _).mp hr
    refine ⟨(Pattern.width_of_merge? hmerge).trans hlw, ?_, ?_⟩
    · rw [Pattern.freeCount_of_merge? hmerge, hlc]
    · exact (Pattern.isImplicant_of_merge? hmerge).mpr ⟨hli, hri⟩
  · rintro ⟨hw, hc, hi⟩
    -- both halves are members, and they merge into the pattern
    obtain ⟨lo, up, hm, -⟩ := Pattern.exists_halves (r := r) (by omega)
    obtain ⟨hlmem, hhmem⟩ := h.mem_of_merge? hm hw hc hi
    rcases h.exists_merge hlmem hhmem hm with hmem | hmem
    · exact ⟨_, hmem, rfl⟩
    · exact ⟨_, hmem, rfl⟩

/-- The implicants of one merged pattern cover all its rows together. -/
theorem coveredBy_products (h : IsCubes terms width g) {r : Pattern}
    (hr : r ∈ (g.merges.map (·.product)).map (·.pattern)) :
    Implicant.ofCovered r (coveredBy (g.merges.map (·.product)) r) = .ofPattern r := by
  have hset : coveredBy (g.merges.map (·.product)) r = (Implicant.ofPattern r).covered := by
    refine Ascending.ext_mem fun t => ?_
    rw [mem_coveredBy, Implicant.mem_covered_ofPattern]
    have hfull : ∀ i ∈ g.merges.map (·.product), i = .ofPattern i.pattern := by
      intro i hi
      obtain ⟨m, hm, rfl⟩ := List.mem_map.mp hi
      exact (h.exists_of_mem_merges hm).2.2.2
    constructor
    · rintro ⟨i, hi, rfl, ht⟩
      rw [hfull i hi] at ht
      exact Implicant.mem_covered_ofPattern.mp ht
    · intro ht
      obtain ⟨i, hi, rfl⟩ := List.mem_map.mp hr
      refine ⟨i, hi, rfl, ?_⟩
      rw [hfull i hi]
      exact Implicant.mem_covered_ofPattern.mpr ht
  rw [hset]
  rfl

/-- The patterns of the next generation are the merged ones in the order of discovery. -/
theorem offspring_eq (h : IsCubes terms width g) :
    g.offspring
      = (distinct ((g.merges.map (·.product)).map (·.pattern))).map Implicant.ofPattern :=
  List.map_congr_left fun _ hr => h.coveredBy_products (mem_distinct.mp hr)

/-- **The invariant is kept from one generation to the next.** -/
theorem offspring (h : IsCubes terms width g) :
    IsCubes terms width ⟨g.number + 1, g.offspring⟩ := by
  have hpatterns : (Generation.mk (g.number + 1) g.offspring).patterns
      = distinct ((g.merges.map (·.product)).map (·.pattern)) := by
    simp only [patterns, h.offspring_eq, List.map_map]
    exact List.map_id _
  constructor
  · intro i hi
    rw [h.offspring_eq] at hi
    obtain ⟨p, -, rfl⟩ := List.mem_map.mp hi
    rfl
  · rw [hpatterns]
    exact nodup_distinct _
  · intro p
    rw [hpatterns, mem_distinct]
    exact h.mem_products p

/-- **What is left over in a generation is prime.** -/
theorem mem_unmerged (h : IsCubes terms width g)
    (hterms : ∀ t ∈ terms, t < RowIndex.count width) (p : Pattern) :
    p ∈ g.unmerged.map (·.pattern) ↔ p ∈ g.patterns ∧ p.IsPrime terms := by
  constructor
  · intro hp
    obtain ⟨i, hi, rfl⟩ := List.mem_map.mp hp
    obtain ⟨hmem, hall⟩ := List.mem_filter.mp hi
    have hpat : i.pattern ∈ g.patterns := List.mem_map.mpr ⟨i, hmem, rfl⟩
    obtain ⟨hw, hc, himp⟩ := (h.mem _).mp hpat
    refine ⟨hpat, Classical.byContradiction fun hnot => ?_⟩
    obtain ⟨q, r, hm, hq⟩ := Pattern.exists_merge?_of_not_isPrime (hw.symm ▸ hterms) himp hnot
    have hqmem : q ∈ g.patterns := by
      have hrc : r.freeCount = g.number + 1 := (Pattern.freeCount_of_merge? hm).trans (hc ▸ rfl)
      exact (h.mem_of_merge? hm ((Pattern.width_of_merge? hm).trans hw) hrc
        ((Pattern.isImplicant_of_merge? hm).mpr ⟨himp, hq⟩)).2
    have hnone := List.all_eq_true.mp hall _ (h.ofPattern_mem.mpr hqmem)
    rw [h.full i hmem, Implicant.merge?_ofPattern, hm] at hnone
    cases hnone
  · rintro ⟨hp, hprime⟩
    obtain ⟨i, hi, rfl⟩ := List.mem_map.mp hp
    refine List.mem_map.mpr ⟨i, List.mem_filter.mpr ⟨hi, List.all_eq_true.mpr fun j hj => ?_⟩, rfl⟩
    cases hm : i.merge? j with
    | none => rfl
    | some m =>
      have hj : j.pattern ∈ g.patterns := List.mem_map.mpr ⟨j, hj, rfl⟩
      exact absurd hprime (Pattern.not_isPrime_of_merge? (Implicant.pattern_of_merge? hm)
        ((h.mem _).mp hj).2.2)

/-- They are the prime implicants with as many free positions as the generation has. -/
theorem mem_unmerged_iff (h : IsCubes terms width g)
    (hterms : ∀ t ∈ terms, t < RowIndex.count width) (p : Pattern) :
    p ∈ g.unmerged.map (·.pattern) ↔
      p.width = width ∧ p.freeCount = g.number ∧ p.IsPrime terms := by
  rw [h.mem_unmerged hterms, h.mem]
  constructor
  · rintro ⟨⟨hw, hn, -⟩, hp⟩
    exact ⟨hw, hn, hp⟩
  · rintro ⟨hw, hn, hp⟩
    exact ⟨⟨hw, hn, hp.1⟩, hp⟩

end IsCubes

/-! ## 5. The succession of generations -/

end Generation

/-- The list has the prime implicants of the terms with at least so many free positions, each
once, and each with all rows of its pattern. -/
structure ArePrimes (terms : List Nat) (width least : Nat) (is : List Implicant) : Prop where
  full : ∀ i ∈ is, i = .ofPattern i.pattern
  nodup : (is.map (·.pattern)).Nodup
  mem : ∀ p : Pattern,
    p ∈ is.map (·.pattern) ↔ p.width = width ∧ least ≤ p.freeCount ∧ p.IsPrime terms

namespace ArePrimes

variable {terms : List Nat} {width least : Nat} {is : List Implicant}

theorem of_mem (h : ArePrimes terms width least is) {i : Implicant} (hi : i ∈ is) :
    i.pattern.width = width ∧ i.pattern.IsPrime terms :=
  have hmem := (h.mem i.pattern).mp (List.mem_map.mpr ⟨i, hi, rfl⟩)
  ⟨hmem.1, hmem.2.2⟩

end ArePrimes

namespace Generation

variable {terms : List Nat} {width : Nat}

/-- Where a generation has no members, no implicant has more free positions. -/
theorem IsCubes.not_isImplicant {g : Generation} (h : IsCubes terms width g)
    (hnil : g.members = []) {p : Pattern} (hw : p.width = width) (hc : g.number ≤ p.freeCount) :
    ¬ p.IsImplicant terms := by
  intro hp
  obtain ⟨q, hqw, hqc, hq⟩ := Pattern.exists_inside_of_le hc
  have hmem : q ∈ g.patterns := (h.mem q).mpr ⟨hqw.trans hw, hqc, hp.of_inside hq⟩
  simp [patterns, hnil] at hmem

/-- **What is left over in all generations is what is prime.**  By induction on the number of
generations; there are no more free positions than positions, so their number suffices. -/
theorem IsCubes.arePrimes_succession (hterms : ∀ t ∈ terms, t < RowIndex.count width)
    (count : Nat) {g : Generation} (h : IsCubes terms width g) (hc : width < g.number + count) :
    ArePrimes terms width g.number ((succession count g).flatMap unmerged) := by
  induction count generalizing g with
  | zero =>
    refine ⟨by simp [succession], by simp [succession], fun p => ?_⟩
    have hle := p.freeCount_le_width
    simp only [succession, List.flatMap_nil, List.map_nil, List.not_mem_nil, false_iff]
    rintro ⟨hw, hn, -⟩
    omega
  | succ count ih =>
    unfold succession
    split
    · next hnil =>
      have hnil : g.members = [] := List.isEmpty_iff.mp hnil
      refine ⟨by simp, by simp, fun p => ?_⟩
      simp only [List.flatMap_nil, List.map_nil, List.not_mem_nil, false_iff]
      rintro ⟨hw, hn, hp⟩
      exact h.not_isImplicant hnil hw hn hp.1
    · have hrest := ih h.offspring (by simp; omega)
      have hmem := h.mem_unmerged_iff hterms
      refine ⟨fun i hi => ?_, ?_, fun p => ?_⟩
      · rcases List.mem_append.mp hi with hi | hi
        · exact h.full i (List.mem_filter.mp hi).1
        · exact hrest.full i hi
      · rw [List.flatMap_cons, List.map_append]
        have hsub : (g.unmerged.map (·.pattern)).Sublist g.patterns :=
          (List.filter_sublist).map _
        refine List.nodup_append.mpr ⟨hsub.nodup h.nodup, hrest.nodup, fun p hp q hq e => ?_⟩
        have h1 := ((hmem p).mp hp).2.1
        have h2 : g.number + 1 ≤ q.freeCount := ((hrest.mem q).mp hq).2.1
        rw [e] at h1
        omega
      · rw [List.flatMap_cons, List.map_append, List.mem_append, hmem, hrest.mem]
        constructor
        · rintro (⟨hw, hn, hp⟩ | ⟨hw, hn, hp⟩)
          · exact ⟨hw, Nat.le_of_eq hn.symm, hp⟩
          · exact ⟨hw, Nat.le_of_succ_le hn, hp⟩
        · rintro ⟨hw, hn, hp⟩
          rcases Nat.eq_or_lt_of_le hn with hn | hn
          · exact .inl ⟨hw, hn.symm, hp⟩
          · exact .inr ⟨hw, hn, hp⟩

end Generation

/-! ## 6. The first generation -/

section Collect

variable {α β ε : Type} {f : α → Except ε β} {xs : List α} {ys : List β}

theorem mem_of_collect (h : collect f xs = .ok ys) {y : β} :
    y ∈ ys ↔ ∃ x ∈ xs, f x = .ok y := by
  have hmap := collect_eq_ok_iff.mp h
  have hy : y ∈ ys ↔ (.ok y : Except ε β) ∈ ys.map .ok := by simp
  rw [hy, ← hmap, List.mem_map]

/-- What holds between the elements holds between the results. -/
theorem pairwise_of_collect {R : α → α → Prop} {S : β → β → Prop} (h : collect f xs = .ok ys)
    (hR : xs.Pairwise R) (hS : ∀ x x' y y', R x x' → f x = .ok y → f x' = .ok y' → S y y') :
    ys.Pairwise S := by
  have hmap := collect_eq_ok_iff.mp h
  have hpw : (xs.map f).Pairwise fun r r' => ∀ y y', r = .ok y → r' = .ok y' → S y y' :=
    List.pairwise_map.mpr (hR.imp fun hxx' y y' hy hy' => hS _ _ y y' hxx' hy hy')
  rw [hmap, List.pairwise_map] at hpw
  exact hpw.imp fun h => h _ _ rfl rfl

/-- Attempts that all succeed have results. -/
theorem exists_collect (h : ∀ x ∈ xs, ∃ y, f x = .ok y) : ∃ ys, collect f xs = .ok ys := by
  cases hc : collect f xs with
  | ok ys => exact ⟨ys, rfl⟩
  | error e =>
    obtain ⟨before, x, after, rfl, hx, -⟩ := collect_eq_error_iff.mp hc
    obtain ⟨y, hy⟩ := h x (by simp)
    rw [hx] at hy
    cases hy

end Collect

section First

variable {terms : List Nat} {width : Nat} {first : List Implicant}

/-- The search starts from the implicants without free positions. -/
theorem isCubes_first (hterms : ∀ t ∈ terms, t < RowIndex.count width)
    (hwidth : width ≤ maxVariables)
    (hf : collect (Implicant.ofTerm · width) (distinct terms) = .ok first) :
    Generation.IsCubes terms width ⟨0, first⟩ := by
  have hmem : ∀ {i}, i ∈ first ↔ ∃ t ∈ terms, ∃ p, Pattern.ofTerm t width = .ok p ∧
      i = .ofPattern p := by
    intro i
    simp only [mem_of_collect hf, mem_distinct, Implicant.ofTerm_eq_ok_iff]
  constructor
  · intro i hi
    obtain ⟨t, -, p, -, rfl⟩ := hmem.mp hi
    rfl
  · refine List.pairwise_map.mpr (pairwise_of_collect hf (nodup_distinct terms) ?_)
    intro s t i j hne hi hj e
    obtain ⟨p, hp, rfl⟩ := Implicant.ofTerm_eq_ok_iff.mp hi
    obtain ⟨q, hq, rfl⟩ := Implicant.ofTerm_eq_ok_iff.mp hj
    have hpq : p = q := e
    have hs := (Pattern.covers_of_ofTerm hp s).mpr rfl
    exact hne ((Pattern.covers_of_ofTerm hq s).mp (hpq ▸ hs))
  · intro p
    simp only [Generation.patterns, List.mem_map]
    constructor
    · rintro ⟨i, hi, rfl⟩
      obtain ⟨t, ht, p, hp, rfl⟩ := hmem.mp hi
      refine ⟨Pattern.width_of_ofTerm hp, Pattern.freeCount_of_ofTerm hp, fun s hs => ?_⟩
      exact (Pattern.covers_of_ofTerm hp s).mp hs ▸ ht
    · rintro ⟨rfl, hc, hp⟩
      obtain ⟨t, ht⟩ := p.exists_covers
      refine ⟨.ofPattern p, hmem.mpr ⟨t, hp t ht, p, ?_, rfl⟩, rfl⟩
      exact Pattern.ofTerm_of_freeCount hc ht

end First

/-! ## 7. Searches that need no generations -/

namespace Pattern

theorem fits_replicate_free {width : Nat} {bs : List Bool} :
    Slot.fits (List.replicate width .free) bs = true ↔ bs.length = width := by
  induction width generalizing bs with
  | zero => cases bs <;> simp [Slot.fits]
  | succ width ih =>
    cases bs with
    | nil => simp [Slot.fits, List.replicate_succ]
    | cons b bs => simp [List.replicate_succ, Slot.admits, ih]

theorem slots_of_universal {width : Nat} {p : Pattern} (h : universal width = .ok p) :
    width ≤ maxVariables ∧ p.slots = List.replicate width .free := by
  unfold universal at h
  split at h
  · next hw => cases h; exact ⟨hw, rfl⟩
  · cases h

theorem width_of_universal {width : Nat} {p : Pattern} (h : universal width = .ok p) :
    p.width = width := by
  simp [Pattern.width, (slots_of_universal h).2]

/-- The universal pattern covers every row. -/
theorem covers_of_universal {width : Nat} {p : Pattern} (h : universal width = .ok p) (t : Nat) :
    p.covers t = true ↔ t < RowIndex.count width := by
  have hw := width_of_universal h
  constructor
  · exact fun ht => hw ▸ lt_of_covers ht
  · intro ht
    refine covers_iff.mpr ⟨RowIndex.bits width t, ?_, ?_⟩
    · rw [(slots_of_universal h).2, fits_replicate_free, RowIndex.length_bits]
    · rw [RowIndex.ofBits_bits, Nat.mod_eq_of_lt ht]

end Pattern

/-- As many distinct numbers below a bound as there are, are all of them. -/
theorem mem_of_nodup_of_length {xs : List Nat} {n t : Nat} (hnodup : xs.Nodup)
    (hlt : ∀ s ∈ xs, s < n) (hlen : xs.length = n) (ht : t < n) : t ∈ xs := by
  refine Classical.byContradiction fun hnot => ?_
  have hsub : (t :: xs) ⊆ List.range n := by
    intro s hs
    rcases List.mem_cons.mp hs with rfl | hs
    · exact List.mem_range.mpr ht
    · exact List.mem_range.mpr (hlt s hs)
  have hle := (List.nodup_cons.mpr ⟨hnot, hnodup⟩).length_le_of_subset hsub
  rw [List.length_cons, List.length_range] at hle
  omega

theorem arePrimes_nothing (width : Nat) : ArePrimes [] width 0 [] := by
  refine ⟨by simp, by simp, fun p => ?_⟩
  simp only [List.map_nil, List.not_mem_nil, false_iff]
  rintro ⟨-, -, hp⟩
  obtain ⟨t, ht⟩ := p.exists_covers
  cases hp.1 t ht

/-- Where every row is a term, the universal pattern is the only prime one. -/
theorem arePrimes_everything {terms : List Nat} {width : Nat} {p : Pattern}
    (hu : Pattern.universal width = .ok p) (hterms : ∀ t, t ∈ terms ↔ t < RowIndex.count width) :
    ArePrimes terms width 0 [.ofPattern p] := by
  have hcov := Pattern.covers_of_universal hu
  have hw := Pattern.width_of_universal hu
  have himp : p.IsImplicant terms := fun t ht => (hterms t).mpr ((hcov t).mp ht)
  have hinside : ∀ q : Pattern, q.IsImplicant terms → q.Inside p :=
    fun q hq t ht => (hcov t).mpr ((hterms t).mp (hq t ht))
  refine ⟨by simp, by simp, fun q => ?_⟩
  simp only [List.map_cons, List.map_nil, List.mem_singleton, Implicant.pattern_ofPattern]
  constructor
  · rintro rfl
    exact ⟨hw, Nat.zero_le _, himp, fun q _ hnot hq => hnot (hinside q hq)⟩
  · rintro ⟨hqw, -, hq⟩
    have hpq : p.Inside q := Classical.byContradiction fun hnot =>
      hq.2 p (hinside q hq.1) hnot himp
    exact Pattern.eq_of_inside (hqw.trans hw.symm) (hinside q hq.1)
      (Pattern.freeCount_le_of_inside (hw.trans hqw.symm) hpq)

/-! ## 8. The search as a whole -/

namespace PrimeSearch

variable {terms : List Nat} {width : Nat}

/-- The ways in which a search succeeds. -/
theorem cases_of_run {s : PrimeSearch} (h : run terms width = .ok s) :
    (terms = [] ∧ s = .nothing) ∨
      (width ≤ maxVariables ∧ ∀ t ∈ terms, t < RowIndex.count width) ∧
        ((∃ p, Pattern.universal width = .ok p ∧
            (distinct terms).length = RowIndex.count width ∧ s = .everything p) ∨
          ∃ first, collect (Implicant.ofTerm · width) (distinct terms) = .ok first ∧
            s = .generations (Generation.succession (width + 1) ⟨0, first⟩)) := by
  unfold run at h
  split at h
  · next hnil =>
    cases h
    exact .inl ⟨List.isEmpty_iff.mp hnil, rfl⟩
  · right
    cases hu : Pattern.universal width with
    | error e => simp [hu, bind, Except.bind] at h
    | ok p =>
      simp only [hu, bind, Except.bind] at h
      cases hfind : terms.find? (RowIndex.count width ≤ ·) with
      | some t => simp [hfind] at h
      | none =>
        have hterms : ∀ t ∈ terms, t < RowIndex.count width := by
          intro t ht
          simpa using List.find?_eq_none.mp hfind t ht
        refine ⟨⟨(Pattern.slots_of_universal hu).1, hterms⟩, ?_⟩
        simp only [hfind] at h
        split at h
        · next hlen =>
          cases h
          exact .inl ⟨p, rfl, hlen, rfl⟩
        · cases hc : collect (Implicant.ofTerm · width) (distinct terms) with
          | error e => simp [hc] at h
          | ok first =>
            simp only [hc, Except.ok.injEq] at h
            exact .inr ⟨first, rfl, h.symm⟩

/-- A search that succeeds finds the prime implicants. -/
theorem arePrimes_of_run {s : PrimeSearch} (h : run terms width = .ok s) :
    ArePrimes terms width 0 s.primes := by
  rcases cases_of_run h with ⟨rfl, rfl⟩ | ⟨⟨hwidth, hterms⟩, hcase⟩
  · exact arePrimes_nothing width
  · rcases hcase with ⟨p, hu, hlen, rfl⟩ | ⟨first, hf, rfl⟩
    · refine arePrimes_everything hu fun t => ⟨hterms t, fun ht => ?_⟩
      have hdistinct : ∀ s ∈ distinct terms, s < RowIndex.count width :=
        fun s hs => hterms s (mem_distinct.mp hs)
      exact mem_distinct.mp (mem_of_nodup_of_length (nodup_distinct terms) hdistinct hlen ht)
    · exact (isCubes_first hterms hwidth hf).arePrimes_succession hterms (width + 1) (by simp)

/-- The search succeeds for rows of not too many variables. -/
theorem exists_run (hwidth : width ≤ maxVariables)
    (hterms : ∀ t ∈ terms, t < RowIndex.count width) : ∃ s, run terms width = .ok s := by
  have hu : ∃ p, Pattern.universal width = .ok p := ⟨_, dif_pos hwidth⟩
  obtain ⟨p, hu⟩ := hu
  have hfind : terms.find? (RowIndex.count width ≤ ·) = none := by
    refine List.find?_eq_none.mpr fun t ht => ?_
    simpa using hterms t ht
  have hfirst : ∃ first, collect (Implicant.ofTerm · width) (distinct terms) = .ok first := by
    refine exists_collect fun t ht => ?_
    obtain ⟨q, hq⟩ : ∃ q, Pattern.ofTerm t width = .ok q :=
      ⟨⟨_, by simpa using hwidth⟩,
        Pattern.ofTerm_eq_ok_iff.mpr ⟨hwidth, hterms t (mem_distinct.mp ht), rfl⟩⟩
    exact ⟨_, Implicant.ofTerm_eq_ok_iff.mpr ⟨q, hq, rfl⟩⟩
  obtain ⟨first, hfirst⟩ := hfirst
  unfold run
  split
  · exact ⟨_, rfl⟩
  · simp only [hu, hfind, bind, Except.bind]
    split
    · exact ⟨_, rfl⟩
    · simp only [hfirst]
      exact ⟨_, rfl⟩

end PrimeSearch

/-- **The search is exact.**  For terms that are rows of not too many variables, in any order
and with any repetitions, it succeeds; the patterns of its result are the prime implicants of
the given width, each once; none is marked essential, and each covers the rows of its pattern,
two for each choice of values at a free position. -/
theorem primeImplicants_exact {terms : List Nat} {width : Nat} (hwidth : width ≤ maxVariables)
    (hterms : ∀ t ∈ terms, t < RowIndex.count width) :
    ∃ is, primeImplicants terms width = .ok is ∧
      (∀ p : Pattern, p.width = width →
        (p ∈ is.map (·.pattern) ↔
          (∀ t, p.covers t = true → t ∈ terms) ∧
            ¬ ∃ q : Pattern, (∀ t, p.covers t = true → q.covers t = true) ∧
              (∃ t, q.covers t = true ∧ p.covers t = false) ∧
              ∀ t, q.covers t = true → t ∈ terms)) ∧
      (∀ i ∈ is, i.pattern.width = width) ∧
      (is.map (·.pattern)).Nodup ∧
      ∀ i ∈ is, i.essential = false ∧ i.covered.toList = i.pattern.terms ∧
        i.covered.size = RowIndex.count i.pattern.freeCount := by
  obtain ⟨s, hs⟩ := PrimeSearch.exists_run hwidth hterms
  have hp := PrimeSearch.arePrimes_of_run hs
  refine ⟨s.primes, by simp [primeImplicants, hs, Except.map], fun p hpw => ?_, fun i hi => ?_,
    hp.nodup, fun i hi => ?_⟩
  · rw [hp.mem]
    constructor
    · rintro ⟨-, -, himp, hmax⟩
      refine ⟨himp, ?_⟩
      rintro ⟨q, hpq, ⟨t, hqt, hpt⟩, hq⟩
      refine hmax q hpq (fun hqp => ?_) hq
      rw [hqp t hqt] at hpt
      cases hpt
    · rintro ⟨himp, hmax⟩
      refine ⟨hpw, Nat.zero_le _, himp, fun q hpq hqp hq => hmax ⟨q, hpq, ?_, hq⟩⟩
      refine Classical.byContradiction fun hnone => hqp fun t ht => ?_
      refine Bool.not_eq_false _ ▸ fun hpt => hnone ⟨t, ht, hpt⟩
  · exact (hp.of_mem hi).1
  · rw [hp.full i hi]
    exact ⟨rfl, rfl, Pattern.length_terms _⟩

/-- The prime implicants of five rows of three variables, listed out of order and one twice. -/
theorem primeImplicants_exact_five_rows :
    3 ≤ maxVariables ∧ (∀ t ∈ [7, 0, 4, 2, 6, 0], t < RowIndex.count 3) ∧
      ∃ is, primeImplicants [7, 0, 4, 2, 6, 0] 3 = .ok is ∧
        (is.map (·.pattern)).Nodup := by
  have hwidth : 3 ≤ maxVariables := by decide
  have hterms : ∀ t ∈ [7, 0, 4, 2, 6, 0], t < RowIndex.count 3 := by decide
  obtain ⟨is, his, -, -, hnodup, -⟩ := primeImplicants_exact hwidth hterms
  exact ⟨hwidth, hterms, is, his, hnodup⟩

end TwoLevel
