/-
# The order in which prime implicants are found

Of two patterns, the one precedes the other that covers the first row on which they differ.  The
search finds the patterns of a generation in this order: a pattern is found when its lower half
meets its upper half, and the lower half precedes every other pattern that it could be merged
from.  So the list of prime implicants depends on nothing but the terms.

* `Pattern.precedes_or_precedes`: the order is total on the patterns of one width;
* `Pattern.eq_or_precedes_of_merge?`: the lower half is the first to be merged;
* `Generation.IsCubes.pairwise_offspring`: a generation in order has its offspring in order;
* `PrimeSearch.pairwise_primes`: the prime implicants come by their number of free positions and
  then in this order;
* `ArePrimes.eq_of_pairwise`: there is only one such list.
-/
import TwoLevel.Proofs.PrimeImplicants

namespace TwoLevel

/-! ## 1. Lists in order -/

section Lists

variable {α κ : Type} {r : α → α → Prop}

/-- The pairs of a list in order are in lexicographic order, and so is each of them. -/
theorem pairwise_pairs {xs : List α} (h : xs.Pairwise r) :
    (pairs xs).Pairwise fun p q => r p.1 q.1 ∨ p.1 = q.1 ∧ r p.2 q.2 := by
  induction xs with
  | nil => exact .nil
  | cons x xs ih =>
    obtain ⟨hx, hxs⟩ := List.pairwise_cons.mp h
    refine List.pairwise_append.mpr ⟨?_, ih hxs, ?_⟩
    · exact List.pairwise_map.mpr (hxs.imp fun hyz => .inr ⟨rfl, hyz⟩)
    · rintro ⟨a, b⟩ hab ⟨c, d⟩ hcd
      obtain ⟨y, -, e⟩ := List.mem_map.mp hab
      cases e
      exact .inl (hx c (mem_of_mem_pairs hcd).1)

theorem rel_of_mem_pairs {xs : List α} (h : xs.Pairwise r) {x y : α} (hxy : (x, y) ∈ pairs xs) :
    r x y := by
  induction xs with
  | nil => cases hxy
  | cons z zs ih =>
    obtain ⟨hz, hzs⟩ := List.pairwise_cons.mp h
    rcases List.mem_append.mp hxy with hxy | hxy
    · obtain ⟨w, hw, e⟩ := List.mem_map.mp hxy
      cases e
      exact hz y hw
    · exact ih hzs hxy

variable [DecidableEq κ] {key : α → κ}

theorem distinctOn_sublist (xs : List α) : (distinctOn key xs).Sublist xs := by
  induction xs with
  | nil => exact .slnil
  | cons x xs ih => exact (List.filter_sublist.trans ih).cons_cons x

/-- **A list in order keeps the first element of each key.** -/
theorem mem_distinctOn_iff (hr : ∀ a b, r a b → ¬ r b a) {xs : List α} (h : xs.Pairwise r)
    {x : α} :
    x ∈ distinctOn key xs ↔ x ∈ xs ∧ ∀ y ∈ xs, key y = key x → y = x ∨ r x y := by
  induction xs with
  | nil => simp [distinctOn]
  | cons z zs ih =>
    obtain ⟨hz, hzs⟩ := List.pairwise_cons.mp h
    rw [distinctOn, List.mem_cons, List.mem_filter, ih hzs, decide_eq_true_eq]
    constructor
    · rintro (rfl | ⟨⟨hx, hfirst⟩, hne⟩)
      · refine ⟨List.mem_cons_self, fun y hy _ => ?_⟩
        exact (List.mem_cons.mp hy).imp id (hz y)
      · refine ⟨List.mem_cons_of_mem z hx, fun y hy hkey => ?_⟩
        rcases List.mem_cons.mp hy with rfl | hy
        · exact absurd hkey.symm hne
        · exact hfirst y hy hkey
    · rintro ⟨hx, hfirst⟩
      rcases List.mem_cons.mp hx with rfl | hx
      · exact .inl rfl
      · by_cases hkey : key x = key z
        · rcases hfirst z List.mem_cons_self hkey.symm with rfl | hxz
          · exact .inl rfl
          · exact absurd (hz x hx) (hr x z hxz)
        · exact .inr ⟨⟨hx, fun y hy => hfirst y (List.mem_cons_of_mem z hy)⟩, hkey⟩

theorem distinct_map (xs : List α) : distinct (xs.map key) = (distinctOn key xs).map key := by
  induction xs with
  | nil => rfl
  | cons x xs ih =>
    rw [List.map_cons, distinct, distinctOn, ← distinct, ih, distinctOn, List.map_cons,
      List.filter_map]
    rfl

end Lists

/-! ## 2. The order of patterns -/

namespace Pattern

variable {p q r : Pattern}

/-- The first row on which the patterns differ is one of the first pattern. -/
def Precedes (p q : Pattern) : Prop :=
  ∃ t, p.covers t = true ∧ q.covers t = false ∧ ∀ s < t, p.covers s = q.covers s

theorem Precedes.asymm (h : p.Precedes q) : ¬ q.Precedes p := by
  obtain ⟨t, hpt, hqt, hbelow⟩ := h
  rintro ⟨u, hqu, hpu, hbelow'⟩
  rcases Nat.lt_trichotomy t u with htu | rfl | hut
  · rw [hbelow' t htu, hpt] at hqt
    cases hqt
  · rw [hqt] at hqu
    cases hqu
  · rw [hbelow u hut, hqu] at hpu
    cases hpu

theorem not_precedes_self (p : Pattern) : ¬ p.Precedes p := fun h => h.asymm h

/-- Patterns that differ on some row are in order, the one way or the other. -/
theorem precedes_or_precedes_of_covers {t : Nat} (h : p.covers t ≠ q.covers t) :
    p.Precedes q ∨ q.Precedes p := by
  induction t using Nat.strongRecOn with
  | ind t ih =>
    by_cases hbelow : ∃ s < t, p.covers s ≠ q.covers s
    · obtain ⟨s, hs, hne⟩ := hbelow
      exact ih s hs hne
    · have hall : ∀ s < t, p.covers s = q.covers s :=
        fun s hs => Classical.byContradiction fun hne => hbelow ⟨s, hs, hne⟩
      cases hp : p.covers t with
      | true =>
        have hq : q.covers t = false := Bool.eq_false_iff.mpr fun hq => h (hp.trans hq.symm)
        exact .inl ⟨t, hp, hq, hall⟩
      | false =>
        have hq : q.covers t = true := 
          Bool.of_not_eq_false fun hq => h (hp.trans hq.symm)
        exact .inr ⟨t, hq, hp, fun s hs => (hall s hs).symm⟩

/-- **The order is total** on the patterns of one width. -/
theorem precedes_or_precedes (hw : p.width = q.width) (hne : p ≠ q) :
    p.Precedes q ∨ q.Precedes p := by
  obtain ⟨t, ht⟩ : ∃ t, p.covers t ≠ q.covers t := by
    refine Classical.byContradiction fun hnone => hne ?_
    have hsame : ∀ t, p.covers t = q.covers t :=
      fun t => Classical.byContradiction fun ht => hnone ⟨t, ht⟩
    have hqp : q.Inside p := fun t ht => hsame t ▸ ht
    exact eq_of_inside hw (fun t ht => hsame t ▸ ht) (freeCount_le_of_inside hw.symm hqp)
  exact precedes_or_precedes_of_covers ht

/-- A pattern with as many rows as another one, and without its first row that they do not
share, has a later row. -/
theorem exists_lt_of_agree (hw : q.width = p.width) (hc : p.freeCount ≤ q.freeCount) {t : Nat}
    (hp : p.covers t = true) (hq : q.covers t = false)
    (hbelow : ∀ s < t, p.covers s = q.covers s) : ∃ u, t < u ∧ q.covers u = true := by
  refine Classical.byContradiction fun hnone => ?_
  have hinside : q.Inside p := by
    intro u hu
    have hne : u ≠ t := by
      rintro rfl
      rw [hu] at hq
      cases hq
    have hut : u < t := Nat.lt_of_le_of_ne (Nat.not_lt.mp fun htu => hnone ⟨u, htu, hu⟩) hne
    exact (hbelow u hut).trans hu
  rw [eq_of_inside hw hinside hc, hp] at hq
  cases hq

/-! ## 3. Halves -/

variable {lo hi : Pattern}

/-- A pattern is the union of two halves, one before the other. -/
structure Halves (lo hi r : Pattern) : Prop where
  merge : lo.merge? hi = some r
  lt : ∀ s t, lo.covers s = true → hi.covers t = true → s < t

theorem Halves.precedes (h : Halves lo hi r) : lo.Precedes hi := by
  obtain ⟨s, hs⟩ := lo.exists_covers
  have hne : lo.covers s ≠ hi.covers s := by
    rw [hs, covers_eq_false_of_merge? h.merge hs]
    exact Bool.noConfusion
  refine (precedes_or_precedes_of_covers hne).resolve_right ?_
  rintro ⟨t, hit, -, hbelow⟩
  have hst := h.lt s t hs hit
  exact Nat.lt_irrefl s (h.lt s s hs (hbelow s hst ▸ hs))

/-- **The lower half is the first to be merged.**  Whatever else merges into the pattern, the
lower half precedes it. -/
theorem eq_or_precedes_of_merge? (h : Halves lo hi r) (hm : p.merge? q = some r) :
    p = lo ∧ q = hi ∨ lo.Precedes p := by
  have hwidth : p.width = lo.width :=
    (widths_of_merge? hm).1.trans (widths_of_merge? h.merge).1.symm
  have hcount : lo.freeCount = p.freeCount := by
    have h1 := freeCount_of_merge? hm
    have h2 := freeCount_of_merge? h.merge
    omega
  by_cases hp : p = lo
  · refine .inl ⟨hp, ?_⟩
    subst hp
    have hinside : q.Inside hi := by
      intro t ht
      have hpt := covers_eq_false_of_merge? (merge?_comm hm) ht
      have hrt := (covers_of_merge? hm t).mpr (.inr ht)
      refine ((covers_of_merge? h.merge t).mp hrt).resolve_left ?_
      rw [hpt]
      exact Bool.noConfusion
    refine eq_of_inside ?_ hinside ?_
    · exact (widths_of_merge? hm).2.trans (widths_of_merge? h.merge).2.symm
    · have h1 := freeCount_of_merge? (merge?_comm hm)
      have h2 := freeCount_of_merge? (merge?_comm h.merge)
      omega
  · refine .inr ((precedes_or_precedes hwidth.symm (Ne.symm hp)).resolve_right ?_)
    -- the row on which they differ would be above the lower half, which would lie inside
    rintro ⟨t, hpt, hlt, hbelow⟩
    have hit : hi.covers t = true := by
      refine ((covers_of_merge? h.merge t).mp ((covers_of_merge? hm t).mpr (.inl hpt))).resolve_left
        ?_
      rw [hlt]
      exact Bool.noConfusion
    have hinside : lo.Inside p := fun s hs => (hbelow s (h.lt s t hs hit)).trans hs
    exact hp (eq_of_inside hwidth.symm hinside (Nat.le_of_eq hcount.symm)).symm

variable {lo' hi' r' : Pattern}

/-- Patterns are in the order of their lower halves. -/
theorem Halves.precedes_of_left (h : Halves lo hi r) (h' : Halves lo' hi' r')
    (hw : r.width = r'.width) (hc : r.freeCount = r'.freeCount) (hlo : lo.Precedes lo') :
    r.Precedes r' := by
  obtain ⟨t, ht, ht', hbelow⟩ := hlo
  have hcount : lo.freeCount ≤ lo'.freeCount := by
    have h1 := freeCount_of_merge? h.merge
    have h2 := freeCount_of_merge? h'.merge
    omega
  have hwidth : lo'.width = lo.width :=
    (widths_of_merge? h'.merge).1.trans (hw.symm.trans (widths_of_merge? h.merge).1.symm)
  obtain ⟨u, htu, hu⟩ := exists_lt_of_agree hwidth hcount ht ht' hbelow
  have hhi' : ∀ s ≤ t, hi'.covers s = false := by
    intro s hs
    refine Bool.eq_false_iff.mpr fun his => ?_
    have := h'.lt u s hu his
    omega
  have hhi : ∀ s < t, hi.covers s = false := by
    intro s hs
    refine Bool.eq_false_iff.mpr fun his => ?_
    have := h.lt t s ht his
    omega
  refine ⟨t, (covers_of_merge? h.merge t).mpr (.inl ht), ?_, fun s hs => ?_⟩
  · refine Bool.eq_false_iff.mpr fun hrt => ?_
    rcases (covers_of_merge? h'.merge t).mp hrt with e | e
    · rw [ht'] at e
      cases e
    · rw [hhi' t (Nat.le_refl t)] at e
      cases e
  · rw [Bool.eq_iff_iff, covers_of_merge? h.merge, covers_of_merge? h'.merge, hhi s hs,
      hhi' s (Nat.le_of_lt hs), hbelow s hs]

/-- Patterns with the same lower half are in the order of their upper halves. -/
theorem Halves.precedes_of_right (h : Halves lo hi r) (h' : Halves lo hi' r')
    (hhi : hi.Precedes hi') : r.Precedes r' := by
  obtain ⟨t, ht, ht', hbelow⟩ := hhi
  refine ⟨t, (covers_of_merge? h.merge t).mpr (.inr ht), ?_, fun s hs => ?_⟩
  · refine Bool.eq_false_iff.mpr fun hrt => ?_
    have hlo := covers_eq_false_of_merge? (merge?_comm h.merge) ht
    rcases (covers_of_merge? h'.merge t).mp hrt with e | e
    · rw [hlo] at e
      cases e
    · rw [ht'] at e
      cases e
  · rw [Bool.eq_iff_iff, covers_of_merge? h.merge, covers_of_merge? h'.merge, hbelow s hs]

end Pattern

/-! ## 4. Generations -/

/-- The order of merges: by the left side and then by the right side. -/
def Merge.Before (m n : Merge) : Prop :=
  m.left.pattern.Precedes n.left.pattern ∨
    m.left.pattern = n.left.pattern ∧ m.right.pattern.Precedes n.right.pattern

theorem Merge.Before.asymm {m n : Merge} (h : m.Before n) : ¬ n.Before m := by
  rintro (h' | ⟨e', h'⟩)
  · rcases h with h | ⟨e, h⟩
    · exact h.asymm h'
    · exact Pattern.not_precedes_self _ (e ▸ h')
  · rcases h with h | ⟨e, h⟩
    · exact Pattern.not_precedes_self _ (e' ▸ h)
    · exact h.asymm h'

namespace Generation

variable {terms : List Nat} {width : Nat} {g : Generation}

theorem pairwise_members (h : g.patterns.Pairwise Pattern.Precedes) :
    g.members.Pairwise fun i j => i.pattern.Precedes j.pattern :=
  List.pairwise_map.mp h

/-- The merges of members in order are in order. -/
theorem pairwise_merges (h : g.patterns.Pairwise Pattern.Precedes) :
    g.merges.Pairwise Merge.Before := by
  refine List.pairwise_filterMap.mpr ((pairwise_pairs (pairwise_members h)).imp ?_)
  rintro ⟨i, j⟩ ⟨k, l⟩ hbefore m hm n hn
  obtain ⟨a, -, rfl⟩ := Option.map_eq_some_iff.mp hm
  obtain ⟨b, -, rfl⟩ := Option.map_eq_some_iff.mp hn
  exact hbefore.imp id fun ⟨e, hjl⟩ => ⟨congrArg Implicant.pattern e, hjl⟩

namespace IsCubes

/-- Each pattern is found when its lower half meets its upper half. -/
theorem halves_of_mem_distinctOn (h : IsCubes terms width g)
    (hord : g.patterns.Pairwise Pattern.Precedes) {m : Merge}
    (hm : m ∈ distinctOn (·.product.pattern) g.merges) :
    Pattern.Halves m.left.pattern m.right.pattern m.product.pattern := by
  obtain ⟨hmem, hfirst⟩ :=
    (mem_distinctOn_iff (fun _ _ => Merge.Before.asymm) (pairwise_merges hord)).mp hm
  obtain ⟨hl, hr, hmerge, -⟩ := h.exists_of_mem_merges hmem
  have hfree : 0 < m.product.pattern.freeCount := by
    rw [Pattern.freeCount_of_merge? hmerge]
    exact Nat.succ_pos _
  obtain ⟨lo, hi, hlohi, hlt⟩ := Pattern.exists_halves hfree
  have hhalves : Pattern.Halves lo hi m.product.pattern := ⟨hlohi, hlt⟩
  rcases Pattern.eq_or_precedes_of_merge? hhalves hmerge with ⟨e, e'⟩ | hprec
  · rw [e, e']
    exact hhalves
  · -- the merge of the halves comes before any other
    obtain ⟨hw, hc, himp⟩ := (h.mem_products m.product.pattern).mp
      (List.mem_map.mpr ⟨_, List.mem_map.mpr ⟨m, hmem, rfl⟩, rfl⟩)
    obtain ⟨hlo, hhi⟩ := h.mem_of_merge? hlohi hw hc himp
    have hfound : ⟨.ofPattern lo, .ofPattern hi, .ofPattern m.product.pattern⟩ ∈ g.merges := by
      refine (h.exists_merge hlo hhi hlohi).resolve_right fun hflip => ?_
      have hflip : Pattern.Precedes hi lo :=
        rel_of_mem_pairs (pairwise_members hord) (mem_merges.mp hflip).1
      exact hhalves.precedes.asymm hflip
    rcases hfirst _ hfound rfl with e | hbefore
    · rw [← e] at hprec
      exact absurd hprec (Pattern.not_precedes_self _)
    · rcases hbefore with hbefore | ⟨e, -⟩
      · exact absurd hbefore hprec.asymm
      · have e : m.left.pattern = lo := e
        rw [e] at hprec
        exact absurd hprec (Pattern.not_precedes_self _)

/-- **A generation in order has its offspring in order.** -/
theorem pairwise_offspring (h : IsCubes terms width g)
    (hord : g.patterns.Pairwise Pattern.Precedes) :
    (g.offspring.map (·.pattern)).Pairwise Pattern.Precedes := by
  have hpatterns : g.offspring.map (·.pattern)
      = (distinctOn (·.product.pattern) g.merges).map (·.product.pattern) := by
    rw [h.offspring_eq, List.map_map, List.map_map, Function.comp_def, ← distinct_map]
    exact List.map_id _
  rw [hpatterns, List.pairwise_map]
  refine ((pairwise_merges hord).sublist (distinctOn_sublist _)).imp_of_mem ?_
  intro m n hm hn hbefore
  have hhm := h.halves_of_mem_distinctOn hord hm
  have hhn := h.halves_of_mem_distinctOn hord hn
  have hkind : ∀ k ∈ distinctOn (·.product.pattern) g.merges,
      k.product.pattern.width = width ∧ k.product.pattern.freeCount = g.number + 1 := by
    intro k hk
    obtain ⟨hw, hc, -⟩ := (h.mem_products k.product.pattern).mp
      (List.mem_map.mpr ⟨_, List.mem_map.mpr ⟨k, mem_of_mem_distinctOn hk, rfl⟩, rfl⟩)
    exact ⟨hw, hc⟩
  rcases hbefore with hleft | ⟨e, hright⟩
  · exact hhm.precedes_of_left hhn ((hkind m hm).1.trans (hkind n hn).1.symm)
      ((hkind m hm).2.trans (hkind n hn).2.symm) hleft
  · exact hhm.precedes_of_right (e ▸ hhn) hright

end IsCubes
end Generation

/-! ## 5. Prime implicants -/

/-- The order in which the prime implicants are found: by the number of free positions, and then
by the first row on which they differ. -/
def Pattern.FoundBefore (p q : Pattern) : Prop :=
  p.freeCount < q.freeCount ∨ p.freeCount = q.freeCount ∧ p.Precedes q

theorem Pattern.FoundBefore.asymm {p q : Pattern} (h : p.FoundBefore q) : ¬ q.FoundBefore p := by
  rintro (h' | ⟨e', h'⟩)
  · rcases h with h | ⟨e, -⟩ <;> omega
  · rcases h with h | ⟨-, h⟩
    · omega
    · exact h.asymm h'

variable {terms : List Nat} {width : Nat}

/-- **The generations give the prime implicants in order.**  By induction on their number. -/
theorem Generation.IsCubes.pairwise_succession (hterms : ∀ t ∈ terms, t < RowIndex.count width)
    (count : Nat) {g : Generation} (h : IsCubes terms width g)
    (hord : g.patterns.Pairwise Pattern.Precedes) (hc : width < g.number + count) :
    (((succession count g).flatMap unmerged).map (·.pattern)).Pairwise Pattern.FoundBefore := by
  induction count generalizing g with
  | zero => exact .nil
  | succ count ih =>
    unfold succession
    split
    · exact .nil
    · have hrest := h.offspring.arePrimes_succession hterms count (by simp; omega)
      rw [List.flatMap_cons, List.map_append]
      refine List.pairwise_append.mpr
        ⟨?_, ih h.offspring (h.pairwise_offspring hord) (by simp; omega), ?_⟩
      · have hsub : (g.unmerged.map (·.pattern)).Sublist g.patterns :=
          List.filter_sublist.map _
        refine (hord.sublist hsub).imp_of_mem fun hp hq hpq => .inr ⟨?_, hpq⟩
        have h1 := ((h.mem_unmerged_iff hterms _).mp hp).2.1
        have h2 := ((h.mem_unmerged_iff hterms _).mp hq).2.1
        exact h1.trans h2.symm
      · intro p hp q hq
        have h1 := ((h.mem_unmerged_iff hterms p).mp hp).2.1
        have h2 : g.number + 1 ≤ q.freeCount := ((hrest.mem q).mp hq).2.1
        exact .inl (by omega)

/-- The search for terms in order starts from patterns in order. -/
theorem pairwise_first {first : List Implicant} (hterms : terms.Pairwise (· < ·))
    (hf : collect (Implicant.ofTerm · width) (distinct terms) = .ok first) :
    (first.map (·.pattern)).Pairwise Pattern.Precedes := by
  have hdistinct : distinct terms = terms := distinctOn_eq_self (hterms.imp Nat.ne_of_lt)
  rw [hdistinct] at hf
  refine List.pairwise_map.mpr (pairwise_of_collect hf hterms ?_)
  intro s t i j hst hi hj
  obtain ⟨p, hp, rfl⟩ := Implicant.ofTerm_eq_ok_iff.mp hi
  obtain ⟨q, hq, rfl⟩ := Implicant.ofTerm_eq_ok_iff.mp hj
  have hqf : ∀ u ≤ s, q.covers u = false := by
    intro u hu
    refine Bool.eq_false_iff.mpr fun hqu => ?_
    have := (Pattern.covers_of_ofTerm hq u).mp hqu
    omega
  refine ⟨s, (Pattern.covers_of_ofTerm hp s).mpr rfl, hqf s (Nat.le_refl s), fun u hu => ?_⟩
  have hpf : p.covers u = false := by
    refine Bool.eq_false_iff.mpr fun hpu => ?_
    have := (Pattern.covers_of_ofTerm hp u).mp hpu
    omega
  exact hpf.trans (hqf u (Nat.le_of_lt hu)).symm

/-- **The prime implicants of terms in order are found in order.** -/
theorem PrimeSearch.pairwise_primes {s : PrimeSearch} (h : run terms width = .ok s)
    (hterms : terms.Pairwise (· < ·)) :
    (s.primes.map (·.pattern)).Pairwise Pattern.FoundBefore := by
  rcases cases_of_run h with ⟨-, rfl⟩ | ⟨⟨hwidth, hlt⟩, ⟨p, -, -, rfl⟩ | ⟨first, hf, rfl⟩⟩
  · exact .nil
  · exact List.pairwise_singleton _ _
  · exact (isCubes_first hlt hwidth hf).pairwise_succession hlt (width + 1)
      (pairwise_first hterms hf) (by simp)

/-- **There is only one list of prime implicants in order.** -/
theorem ArePrimes.eq_of_pairwise {least : Nat} {is js : List Implicant}
    (hi : ArePrimes terms width least is) (hj : ArePrimes terms width least js)
    (his : (is.map (·.pattern)).Pairwise Pattern.FoundBefore)
    (hjs : (js.map (·.pattern)).Pairwise Pattern.FoundBefore) : is = js := by
  have hpatterns : is.map (·.pattern) = js.map (·.pattern) :=
    eq_of_pairwise_of_mem_iff (fun _ _ => Pattern.FoundBefore.asymm) his hjs fun p =>
      (hi.mem p).trans (hj.mem p).symm
  have hfull : ∀ {ks : List Implicant}, ArePrimes terms width least ks →
      ks = (ks.map (·.pattern)).map .ofPattern := by
    intro ks hk
    rw [List.map_map]
    exact (List.map_id ks).symm.trans (List.map_congr_left hk.full)
  rw [hfull hi, hfull hj, hpatterns]

end TwoLevel
