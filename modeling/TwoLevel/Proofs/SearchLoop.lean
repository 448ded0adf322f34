/-
# The loop of the search

A generation is merged in one pass over its pairs.  When two members merge, their places are noted,
and the merged implicant joins the next generation: an implicant that has its pattern already takes
its terms.  Members whose places were not noted at the end of the pass are prime.  The loop goes on
as long as there are members, and no number of passes is set for it (`Loop`).

* `Generation.foldl_join_products`: what has joined the next generation is the offspring;
* `Stage.advance_eq_ok`: a pass does what a generation does as a whole;
* `Generation.mem_unmerged_iff`: a member is left over when it takes part in no merge;
* `Loop.isCubes`: every generation of the loop has the invariant of the search;
* `Loop.length_add_le`, `exists_loop`: a generation with as many free positions as positions has no
  members unless every row is a term, so the loop ends;
* `PrimeSearch.loop_spec`: the loop of the search for some of the rows.
-/
import Mathlib.Data.List.Induction
import TwoLevel.Proofs.WordSearch

namespace TwoLevel

/-! ## 1. Joining the next generation -/

/-- Appended values are new where they did not occur before. -/
theorem distinct_append {κ : Type} [DecidableEq κ] (xs ys : List κ) :
    distinct (xs ++ ys) = distinct xs ++ (distinct ys).filter (· ∉ xs) := by
  have hcons : ∀ (x : κ) zs, distinct (x :: zs) = x :: (distinct zs).filter (· ≠ x) :=
    fun _ _ => rfl
  induction xs with
  | nil => exact (List.filter_eq_self.mpr fun _ _ => by simp).symm
  | cons x xs ih =>
    have hfilter : ∀ y, (decide (y ≠ x) && decide (y ∉ xs)) = decide (y ∉ x :: xs) := by
      intro y
      simp [Bool.decide_and]
    rw [List.cons_append, hcons, hcons, ih, List.filter_append, List.filter_filter,
      List.filter_congr fun y _ => hfilter y, List.cons_append]

namespace Implicant

variable {m : Implicant} {is : List Implicant}

/-- The list with one more implicant; its terms go to the implicant with the same pattern, if there
is one. -/
def join (m : Implicant) : List Implicant → List Implicant
  | [] => [m]
  | i :: is =>
    if i.pattern = m.pattern then { i with covered := i.covered.union m.covered } :: is
    else i :: join m is

theorem join_of_notMem (h : m.pattern ∉ is.map (·.pattern)) : m.join is = is ++ [m] := by
  induction is with
  | nil => rfl
  | cons i is ih =>
    rw [List.map_cons, List.mem_cons, not_or] at h
    rw [join, if_neg (Ne.symm h.1), ih h.2, List.cons_append]

theorem join_of_mem (hnodup : (is.map (·.pattern)).Nodup) (h : m.pattern ∈ is.map (·.pattern)) :
    m.join is = is.map fun i =>
      if i.pattern = m.pattern then { i with covered := i.covered.union m.covered } else i := by
  induction is with
  | nil => cases h
  | cons i is ih =>
    obtain ⟨hi, his⟩ := List.nodup_cons.mp hnodup
    rw [join, List.map_cons]
    by_cases him : i.pattern = m.pattern
    · have hrest : ∀ j ∈ is, ¬ j.pattern = m.pattern := fun j hj e =>
        hi (List.mem_map.mpr ⟨j, hj, e.trans him.symm⟩)
      rw [if_pos him, if_pos him, List.map_congr_left fun j hj => if_neg (hrest j hj), List.map_id']
    · have hmem : m.pattern ∈ is.map (·.pattern) := (List.mem_cons.mp h).resolve_left (Ne.symm him)
      rw [if_neg him, if_neg him, ih his hmem]

end Implicant

namespace Generation

variable {g : Generation} {is : List Implicant} {m : Implicant}

/-- The implicants of each pattern as one, at the place of the first of them. -/
def collapse (is : List Implicant) : List Implicant :=
  (distinct (is.map (·.pattern))).map fun p => .ofCovered p (coveredBy is p)

theorem map_pattern_collapse (is : List Implicant) :
    (collapse is).map (·.pattern) = distinct (is.map (·.pattern)) := by
  rw [collapse, List.map_map]
  exact List.map_id _

theorem coveredBy_append_of_ne {p : Pattern} (h : p ≠ m.pattern) :
    coveredBy (is ++ [m]) p = coveredBy is p := by
  refine Ascending.ext_mem fun t => ?_
  simp [mem_coveredBy, or_and_right, exists_or, Ne.symm h]

theorem coveredBy_append_pattern (is : List Implicant) (m : Implicant) :
    coveredBy (is ++ [m]) m.pattern = (coveredBy is m.pattern).union m.covered := by
  refine Ascending.ext_mem fun t => ?_
  simp [mem_coveredBy, or_and_right, exists_or]

theorem coveredBy_of_notMem {p : Pattern} (h : p ∉ is.map (·.pattern)) :
    coveredBy is p = .empty := by
  refine Ascending.ext_mem fun t => ?_
  rw [mem_coveredBy]
  constructor
  · rintro ⟨i, hi, hp, -⟩
    exact absurd (List.mem_map.mpr ⟨i, hi, hp⟩) h
  · exact fun ht => absurd ht Ascending.not_mem_empty

/-- **An implicant joins those that are collapsed.**  If its pattern is new it comes last, and else
its terms are added to those of its pattern. -/
theorem collapse_append (is : List Implicant) (hm : m.essential = false) :
    collapse (is ++ [m]) = m.join (collapse is) := by
  have hpatterns := map_pattern_collapse is
  have hkeys : distinct ((is ++ [m]).map (·.pattern))
      = distinct (is.map (·.pattern)) ++ [m.pattern].filter (· ∉ is.map (·.pattern)) := by
    rw [List.map_append, distinct_append]
    rfl
  rw [collapse, hkeys]
  by_cases hmem : m.pattern ∈ is.map (·.pattern)
  · rw [Implicant.join_of_mem (hpatterns ▸ nodup_distinct _) (hpatterns ▸ mem_distinct.mpr hmem),
      List.filter_cons_of_neg (by simpa using hmem), List.filter_nil, List.append_nil, collapse,
      List.map_map]
    refine List.map_congr_left fun p _ => ?_
    by_cases hp : p = m.pattern
    · rw [hp, coveredBy_append_pattern]
      exact (if_pos rfl).symm
    · rw [coveredBy_append_of_ne hp]
      exact (if_neg hp).symm
  · rw [Implicant.join_of_notMem (hpatterns ▸ mt mem_distinct.mp hmem),
      List.filter_cons_of_pos (by simpa using hmem), List.filter_nil, List.map_append, collapse]
    have hold : ∀ p ∈ distinct (is.map (·.pattern)),
        Implicant.ofCovered p (coveredBy (is ++ [m]) p) = .ofCovered p (coveredBy is p) := by
      intro p hp
      rw [coveredBy_append_of_ne]
      rintro rfl
      exact hmem (mem_distinct.mp hp)
    have hnew : coveredBy (is ++ [m]) m.pattern = m.covered := by
      rw [coveredBy_append_pattern, coveredBy_of_notMem hmem]
      rfl
    rw [List.map_congr_left hold, List.map_singleton, hnew]
    cases m
    cases hm
    rfl

/-- Unmarked implicants that join one after the other are collapsed. -/
theorem foldl_join (ms : List Implicant) (h : ∀ m ∈ ms, m.essential = false) :
    ms.foldl (fun is m => m.join is) [] = collapse ms := by
  induction ms using List.reverseRecOn with
  | nil => rfl
  | append_singleton ms m ih =>
    have hms : ∀ n ∈ ms, n.essential = false := fun n hn => h n (List.mem_append_left _ hn)
    rw [List.foldl_append, ih hms, collapse_append ms (h m (by simp))]
    rfl

/-- **The merged implicants, joined one after the other, are the offspring.** -/
theorem foldl_join_products (g : Generation) :
    (g.merges.map (·.product)).foldl (fun is m => m.join is) [] = g.offspring := by
  refine foldl_join _ fun m hm => ?_
  obtain ⟨merge, hmerge, rfl⟩ := List.mem_map.mp hm
  obtain ⟨_, -, hproduct⟩ := Option.map_eq_some_iff.mp (mem_merges.mp hmerge).2
  rw [← hproduct]
  rfl

end Generation

/-! ## 2. One pass -/

section Pairs

variable {α β : Type} {xs : List α} {x : α}

theorem pairs_map (f : α → β) (xs : List α) :
    pairs (xs.map f) = (pairs xs).map (Prod.map f f) := by
  induction xs with
  | nil => rfl
  | cons x xs ih =>
    rw [List.map_cons, pairs, pairs, ih, List.map_append, List.map_map, List.map_map]
    rfl

/-- The partners of an element are those with which it makes a pair, on either side. -/
theorem exists_pair_iff (R : α → α → Prop) (hsymm : ∀ y z, R y z → R z y)
    (hirrefl : ∀ y, ¬ R y y) (hx : x ∈ xs) :
    (∃ q ∈ pairs xs, R q.1 q.2 ∧ (q.1 = x ∨ q.2 = x)) ↔ ∃ y ∈ xs, R x y := by
  constructor
  · rintro ⟨⟨y, z⟩, hq, hr, rfl | rfl⟩
    · exact ⟨z, (mem_of_mem_pairs hq).2, hr⟩
    · exact ⟨y, (mem_of_mem_pairs hq).1, hsymm _ _ hr⟩
  · rintro ⟨y, hy, hr⟩
    have hne : x ≠ y := fun e => hirrefl y (e ▸ hr)
    rcases mem_pairs_or_mem_pairs hx hy hne with hq | hq
    · exact ⟨(x, y), hq, hr, .inl rfl⟩
    · exact ⟨(y, x), hq, hsymm _ _ hr, .inr rfl⟩

end Pairs

namespace Implicant

/-- Two implicants merge. -/
def Neighbours (i j : Implicant) : Prop := ∃ m, i.merge? j = some m

theorem Neighbours.symm {i j : Implicant} (h : i.Neighbours j) : j.Neighbours i := by
  obtain ⟨m, hm⟩ := h
  exact ⟨m, (merge?_comm j i).trans hm⟩

theorem not_neighbours_self (i : Implicant) : ¬ i.Neighbours i := by
  rintro ⟨m, hm⟩
  cases (merge?_self i).symm.trans hm

end Implicant

namespace Generation

variable {g : Generation} {i : Implicant}

theorem mem_unmerged_iff_not_neighbours :
    i ∈ g.unmerged ↔ i ∈ g.members ∧ ¬ ∃ j ∈ g.members, i.Neighbours j := by
  simp [unmerged, Implicant.Neighbours, Option.eq_none_iff_forall_ne_some]

/-- **A member is left over when it takes part in no merge.** -/
theorem mem_unmerged_iff (hi : i ∈ g.members) :
    i ∈ g.unmerged ↔ ¬ ∃ m ∈ g.merges, m.left = i ∨ m.right = i := by
  rw [mem_unmerged_iff_not_neighbours, and_iff_right hi,
    ← exists_pair_iff Implicant.Neighbours (fun _ _ h => h.symm) Implicant.not_neighbours_self hi]
  refine not_congr ⟨?_, ?_⟩
  · rintro ⟨⟨j, k⟩, hq, ⟨m, hm⟩, hi⟩
    exact ⟨⟨j, k, m⟩, mem_merges.mpr ⟨hq, hm⟩, hi⟩
  · rintro ⟨m, hm, hi⟩
    obtain ⟨hq, hproduct⟩ := mem_merges.mp hm
    exact ⟨(m.left, m.right), hq, ⟨_, hproduct⟩, hi⟩

end Generation

/-- A pass over the pairs of a generation, under way. -/
structure Pass where
  /-- What has joined the next generation. -/
  next : List Implicant
  /-- The places of the members that were merged. -/
  used : List Nat

namespace Pass

/-- Two members are merged, if they can be. -/
def visit (s : Pass) : (Implicant × Nat) × (Implicant × Nat) → Except Error Pass
  | ((i, k), (j, l)) => do
    match ← i.combine j with
    | some m => return ⟨m.join s.next, s.used ++ [k, l]⟩
    | none => return s

/-- What is made of two members of one width. -/
def note (s : Pass) (q : (Implicant × Nat) × (Implicant × Nat)) : Pass :=
  match q.1.1.merge? q.2.1 with
  | some m => ⟨m.join s.next, s.used ++ [q.1.2, q.2.2]⟩
  | none => s

variable {qs : List ((Implicant × Nat) × (Implicant × Nat))}

/-- No pair fails where the members have one width. -/
theorem foldlM_visit (hw : ∀ q ∈ qs, q.1.1.pattern.width = q.2.1.pattern.width) (s : Pass) :
    qs.foldlM visit s = .ok (qs.foldl note s) := by
  induction qs generalizing s with
  | nil => rfl
  | cons q qs ih =>
    obtain ⟨hq, hqs⟩ := List.forall_mem_cons.mp hw
    have hvisit : visit s q = .ok (s.note q) := by
      simp only [visit, note, Implicant.combine_eq_merge? hq, bind, Except.bind]
      cases q.1.1.merge? q.2.1 <;> rfl
    rw [List.foldlM_cons, hvisit, List.foldl_cons]
    exact ih hqs (s.note q)

/-- The merged implicants join in the order of the pairs. -/
theorem next_foldl_note (qs : List ((Implicant × Nat) × (Implicant × Nat))) (s : Pass) :
    (qs.foldl note s).next
      = (qs.filterMap fun q => q.1.1.merge? q.2.1).foldl (fun is m => m.join is) s.next := by
  induction qs generalizing s with
  | nil => rfl
  | cons q qs ih =>
    rw [List.foldl_cons, ih, note, List.filterMap_cons]
    cases q.1.1.merge? q.2.1 <;> rfl

/-- The places of both sides of each merge are noted. -/
theorem mem_used_foldl_note {s : Pass} {k : Nat} :
    k ∈ (qs.foldl note s).used ↔
      k ∈ s.used ∨ ∃ q ∈ qs, q.1.1.Neighbours q.2.1 ∧ (q.1.2 = k ∨ q.2.2 = k) := by
  induction qs generalizing s with
  | nil => simp
  | cons q qs ih =>
    have hnote : k ∈ (s.note q).used ↔
        k ∈ s.used ∨ q.1.1.Neighbours q.2.1 ∧ (q.1.2 = k ∨ q.2.2 = k) := by
      rw [note, Implicant.Neighbours]
      cases q.1.1.merge? q.2.1 <;> simp [eq_comm]
    rw [List.foldl_cons, ih, hnote, or_assoc]
    simp

/-- The place of a member is noted when the member has a neighbour. -/
theorem mem_used_iff {is : List Implicant} {i : Implicant} {k : Nat} (h : (i, k) ∈ is.zipIdx) :
    k ∈ ((pairs is.zipIdx).foldl note ⟨[], []⟩).used ↔ ∃ j ∈ is, i.Neighbours j := by
  have hplace : ∀ x ∈ is.zipIdx, x.2 = k ↔ x = (i, k) := by
    intro x hx
    refine ⟨?_, fun e => by rw [e]⟩
    rintro rfl
    have hi : is[x.2]? = some i := List.mem_zipIdx_iff_getElem?.mp h
    have hx : is[x.2]? = some x.1 := List.mem_zipIdx_iff_getElem?.mp hx
    exact Prod.ext (Option.some.inj (hx.symm.trans hi)) rfl
  have hpartner := exists_pair_iff (fun x y => x.1.Neighbours y.1) (fun _ _ h => h.symm)
    (fun x => Implicant.not_neighbours_self x.1) h
  have hmembers : (∃ y ∈ is.zipIdx, i.Neighbours y.1) ↔ ∃ j ∈ is, i.Neighbours j := by
    constructor
    · rintro ⟨⟨j, l⟩, hy, hj⟩
      exact ⟨j, List.fst_mem_of_mem_zipIdx hy, hj⟩
    · rintro ⟨j, hj, hij⟩
      obtain ⟨l, hl⟩ := List.mem_iff_getElem?.mp hj
      exact ⟨(j, l), List.mem_zipIdx_iff_getElem?.mpr hl, hij⟩
  rw [mem_used_foldl_note, ← hmembers, ← hpartner]
  simp only [List.not_mem_nil, false_or]
  refine exists_congr fun q => and_congr_right fun hq => and_congr_right fun _ => ?_
  obtain ⟨hleft, hright⟩ := mem_of_mem_pairs hq
  rw [hplace _ hleft, hplace _ hright]

end Pass

/-- The loop at the start of an iteration. -/
structure Stage where
  generation : Generation
  /-- The prime implicants of the iterations before. -/
  found : List Implicant

namespace Stage

/-- An iteration of the loop: the pairs are visited, and the members that were not merged are
prime. -/
def advance (s : Stage) : Except Error Stage := do
  let placed := s.generation.members.zipIdx
  let pass ← (pairs placed).foldlM Pass.visit ⟨[], []⟩
  let left := placed.filter fun (_, k) => k ∉ pass.used
  return ⟨⟨s.generation.number + 1, pass.next⟩, s.found ++ left.map Prod.fst⟩

theorem next_eq_offspring (g : Generation) :
    ((pairs g.members.zipIdx).foldl Pass.note ⟨[], []⟩).next = g.offspring := by
  have hproducts : (pairs g.members.zipIdx).filterMap (fun q => q.1.1.merge? q.2.1)
      = g.merges.map (·.product) := by
    have hpairs : pairs g.members = (pairs g.members.zipIdx).map (Prod.map Prod.fst Prod.fst) := by
      rw [← pairs_map, List.zipIdx_map_fst]
    rw [Generation.merges, List.map_filterMap, hpairs, List.filterMap_map]
    simp [Option.map_map, Function.comp_def]
  rw [Pass.next_foldl_note, hproducts, Generation.foldl_join_products]

theorem left_eq_unmerged (g : Generation) :
    (g.members.zipIdx.filter fun (_, k) =>
        k ∉ ((pairs g.members.zipIdx).foldl Pass.note ⟨[], []⟩).used).map Prod.fst
      = g.unmerged := by
  have hkept : ∀ x ∈ g.members.zipIdx,
      decide (x.2 ∉ ((pairs g.members.zipIdx).foldl Pass.note ⟨[], []⟩).used)
        = g.members.all fun j => (x.1.merge? j).isNone := by
    rintro ⟨i, k⟩ hx
    rw [Bool.eq_iff_iff, decide_eq_true_eq, Pass.mem_used_iff hx]
    simp [Implicant.Neighbours, Option.eq_none_iff_forall_ne_some]
  have hfilter := List.filter_map (f := Prod.fst)
    (p := fun i => g.members.all fun j => (i.merge? j).isNone) (l := g.members.zipIdx)
  rw [List.zipIdx_map_fst] at hfilter
  rw [Generation.unmerged, hfilter]
  exact congrArg (List.map Prod.fst) (List.filter_congr hkept)

/-- **A pass does what a generation does as a whole**: the merged implicants are its offspring, and
its unmerged members are added to those that were found. -/
theorem advance_eq_ok {s : Stage}
    (hw : ∀ i ∈ s.generation.members, ∀ j ∈ s.generation.members,
      i.pattern.width = j.pattern.width) :
    s.advance = .ok ⟨⟨s.generation.number + 1, s.generation.offspring⟩,
      s.found ++ s.generation.unmerged⟩ := by
  have hpairs : ∀ q ∈ pairs s.generation.members.zipIdx,
      q.1.1.pattern.width = q.2.1.pattern.width := by
    intro q hq
    obtain ⟨hleft, hright⟩ := mem_of_mem_pairs hq
    exact hw _ (List.fst_mem_of_mem_zipIdx hleft) _ (List.fst_mem_of_mem_zipIdx hright)
  simp only [advance, Pass.foldlM_visit hpairs, bind, Except.bind, next_eq_offspring,
    left_eq_unmerged]
  rfl

end Stage

/-! ## 3. The loop -/

/-- The loop from a stage to the last one, with the stages at the start of each iteration.  It goes
on as long as there are members. -/
inductive Loop : Stage → List Stage → Stage → Prop where
  | done {s : Stage} (h : s.generation.members = []) : Loop s [] s
  | iterate {s t last : Stage} {stages : List Stage} (h : s.generation.members ≠ [])
    (hs : s.advance = .ok t) (hrest : Loop t stages last) : Loop s (s :: stages) last

section

variable {terms : List Nat} {width : Nat} {s last : Stage} {stages : List Stage}

open Generation (IsCubes succession)

/-- The members of a generation are cubes of one width, so a pass does not fail. -/
theorem Generation.IsCubes.advance_eq_ok (h : IsCubes terms width s.generation) :
    s.advance = .ok ⟨⟨s.generation.number + 1, s.generation.offspring⟩,
      s.found ++ s.generation.unmerged⟩ :=
  Stage.advance_eq_ok fun _ hi _ hj => (h.width_eq hi).trans (h.width_eq hj).symm

variable {g : Generation}

theorem Generation.IsCubes.number_le (h : IsCubes terms width g) (hmembers : g.members ≠ []) :
    g.number ≤ width := by
  obtain ⟨i, hi⟩ := List.exists_mem_of_ne_nil _ hmembers
  obtain ⟨hw, hc, -⟩ := (h.mem i.pattern).mp (List.mem_map_of_mem hi)
  exact hc ▸ hw ▸ i.pattern.freeCount_le_width

/-- A pattern without fixed positions is no implicant unless every row is a term. -/
theorem Generation.IsCubes.number_lt (h : IsCubes terms width g)
    (hopen : ∃ t < RowIndex.count width, t ∉ terms) (hmembers : g.members ≠ []) :
    g.number < width := by
  refine Nat.lt_of_le_of_ne (h.number_le hmembers) fun e => ?_
  obtain ⟨i, hi⟩ := List.exists_mem_of_ne_nil _ hmembers
  obtain ⟨hw, hc, himplicant⟩ := (h.mem i.pattern).mp (List.mem_map_of_mem hi)
  obtain ⟨t, ht, hnot⟩ := hopen
  have hlength : i.pattern.terms.length = RowIndex.count width := by
    rw [Pattern.length_terms, hc, e]
  have hlt : ∀ s ∈ i.pattern.terms, s < RowIndex.count width := fun s hs =>
    hw ▸ Pattern.lt_of_covers (Pattern.mem_terms.mp hs)
  have hmem : t ∈ i.pattern.terms :=
    mem_of_nodup_of_length i.pattern.nodup_terms hlt hlength ht
  exact hnot (himplicant t (Pattern.mem_terms.mp hmem))

namespace Loop

/-- **Each iteration starts from a generation with the invariant of the search.**  By induction on
the loop; the iterations are numbered in order. -/
theorem isCubes (hl : Loop s stages last) (h : IsCubes terms width s.generation) {n : Nat}
    {t : Stage} (ht : stages[n]? = some t) :
    t.generation.number = s.generation.number + n ∧ IsCubes terms width t.generation := by
  induction hl generalizing n with
  | done => cases ht
  | iterate hmembers hs hrest ih =>
    cases n with
    | zero =>
      cases ht
      exact ⟨rfl, h⟩
    | succ n =>
      cases hs.symm.trans h.advance_eq_ok
      obtain ⟨hnumber, ht⟩ := ih h.offspring ht
      exact ⟨hnumber.trans (Nat.succ_add_eq_add_succ _ n), ht⟩

/-- **No more iterations than positions**, unless every row is a term. -/
theorem length_add_le (hl : Loop s stages last) (h : IsCubes terms width s.generation)
    (hopen : ∃ t < RowIndex.count width, t ∉ terms) (hle : s.generation.number ≤ width) :
    s.generation.number + stages.length ≤ width := by
  induction hl with
  | done => exact hle
  | iterate hmembers hs hrest ih =>
    cases hs.symm.trans h.advance_eq_ok
    have hrest := ih h.offspring (h.number_lt hopen hmembers)
    simp only [List.length_cons] at hrest ⊢
    omega

/-- What is found are the members that were left over in each iteration. -/
theorem found_eq (hl : Loop s stages last) (h : IsCubes terms width s.generation) :
    last.found = s.found ++ (stages.map (·.generation)).flatMap Generation.unmerged := by
  induction hl with
  | done => simp
  | iterate hmembers hs hrest ih =>
    cases hs.symm.trans h.advance_eq_ok
    rw [ih h.offspring, List.map_cons, List.flatMap_cons, List.append_assoc]

/-- The loop goes through the generations of the search; their number is never what ends them. -/
theorem map_generation_eq (hl : Loop s stages last) (h : IsCubes terms width s.generation)
    {count : Nat} (hcount : width < s.generation.number + count) :
    stages.map (·.generation) = succession count s.generation := by
  induction hl generalizing count with
  | done hnil => cases count <;> simp [succession, hnil]
  | @iterate s t last stages hmembers hs hrest ih =>
    cases hs.symm.trans h.advance_eq_ok
    have hle := h.number_le hmembers
    cases count with
    | zero => omega
    | succ count =>
      have hnext : width < s.generation.number + 1 + count := by omega
      have hempty : ¬ s.generation.members.isEmpty = true := fun e =>
        hmembers (List.isEmpty_iff.mp e)
      rw [List.map_cons, succession, if_neg hempty, ih h.offspring hnext]

end Loop

/-- **The loop ends.**  By induction on a number of iterations that leaves no free positions. -/
theorem exists_loop (count : Nat) (h : IsCubes terms width s.generation)
    (hcount : width < s.generation.number + count) : ∃ stages last, Loop s stages last := by
  induction count generalizing s with
  | zero =>
    have hnil : s.generation.members = [] := Classical.byContradiction fun hmembers => by
      have hle := h.number_le hmembers
      omega
    exact ⟨[], s, .done hnil⟩
  | succ count ih =>
    by_cases hmembers : s.generation.members = []
    · exact ⟨[], s, .done hmembers⟩
    · have hnext : width < s.generation.number + 1 + count := by omega
      obtain ⟨stages, last, hl⟩ := ih (s := ⟨⟨_, _⟩, _⟩) h.offspring hnext
      exact ⟨s :: stages, last, .iterate hmembers h.advance_eq_ok hl⟩

/-- Of the members of an iteration, those are found that are left over in it: the members of other
iterations have another number of free positions. -/
theorem Loop.mem_found_iff (hl : Loop s stages last) (h : IsCubes terms width s.generation)
    (hfound : s.found = []) {t : Stage} (ht : t ∈ stages) {i : Implicant}
    (hi : i ∈ t.generation.members) : i ∈ last.found ↔ i ∈ t.generation.unmerged := by
  rw [hl.found_eq h, hfound, List.nil_append, List.mem_flatMap]
  constructor
  · rintro ⟨g, hg, hig⟩
    obtain ⟨u, hu, rfl⟩ := List.mem_map.mp hg
    obtain ⟨n, hn⟩ := List.mem_iff_getElem?.mp hu
    obtain ⟨m, hm⟩ := List.mem_iff_getElem?.mp ht
    obtain ⟨hun, hucubes⟩ := hl.isCubes h hn
    obtain ⟨htm, htcubes⟩ := hl.isCubes h hm
    have huc := ((hucubes.mem _).mp (List.mem_map_of_mem (List.mem_filter.mp hig).1)).2.1
    have htc := ((htcubes.mem _).mp (List.mem_map_of_mem hi)).2.1
    have hnm : n = m := by omega
    cases hnm
    cases hn.symm.trans hm
    exact hig
  · exact fun hleft => ⟨_, List.mem_map_of_mem ht, hleft⟩

/-! ## 4. The loop of a search -/

/-- Where some row is no term, the search goes through generations. -/
theorem PrimeSearch.run_of_open (hwidth : width ≤ maxVariables) (hne : terms ≠ [])
    (hterms : ∀ t ∈ terms, t < RowIndex.count width)
    (hopen : ∃ t < RowIndex.count width, t ∉ terms) :
    ∃ first, collect (Implicant.ofTerm · width) (distinct terms) = .ok first ∧
      run terms width = .ok (.generations (succession (width + 1) ⟨0, first⟩)) := by
  obtain ⟨s, hs⟩ := exists_run hwidth hterms
  rcases cases_of_run hs with ⟨hnil, -⟩ | ⟨-, ⟨_, -, hlength, -⟩ | ⟨first, hfirst, rfl⟩⟩
  · exact absurd hnil hne
  · obtain ⟨t, ht, hnot⟩ := hopen
    have hdistinct : ∀ s ∈ distinct terms, s < RowIndex.count width :=
      fun s hs => hterms s (mem_distinct.mp hs)
    exact absurd (mem_distinct.mp
      (mem_of_nodup_of_length (nodup_distinct terms) hdistinct hlength ht)) hnot
  · exact ⟨first, hfirst, hs⟩

end

namespace PrimeSearch

/-- **The loop of the search.**  For rows of not too many variables, some but not all of them, the
search starts from the implicants of single rows, and the loop ends; it takes at most as many
iterations as there are variables, and it goes through the generations of the search and finds the
prime implicants.

At the start of iteration `g` the members are the implicants with `g` free positions, each pattern
once, and each with all rows of its pattern.  The iteration gives those that take part in no merge,
and no others, to the prime implicants. -/
theorem loop_spec {terms : List Nat} {width : Nat} (hwidth : width ≤ maxVariables)
    (hne : terms ≠ []) (hterms : ∀ t ∈ terms, t < 2 ^ width)
    (hopen : ∃ t < 2 ^ width, t ∉ terms) :
    ∃ first, collect (Implicant.ofTerm · width) (distinct terms) = .ok first ∧
      (∃ stages last, Loop ⟨⟨0, first⟩, []⟩ stages last) ∧
      ∀ stages last, Loop ⟨⟨0, first⟩, []⟩ stages last →
        stages.length ≤ width ∧
        run terms width = .ok (.generations (stages.map (·.generation))) ∧
        primeImplicants terms width = .ok last.found ∧
        ∀ g s, stages[g]? = some s →
          s.generation.number = g ∧
          s.generation.patterns.Nodup ∧
          (∀ p : Pattern, p ∈ s.generation.patterns ↔
            p.width = width ∧ p.freeCount = g ∧ ∀ t, p.covers t = true → t ∈ terms) ∧
          (∀ i ∈ s.generation.members, i.covered.toList = i.pattern.terms) ∧
          s.advance = .ok ⟨⟨g + 1, s.generation.offspring⟩, s.found ++ s.generation.unmerged⟩ ∧
          ∀ i ∈ s.generation.members,
            (i ∈ s.generation.unmerged ↔ ¬ ∃ m ∈ s.generation.merges, m.left = i ∨ m.right = i) ∧
            (i ∈ last.found ↔ i ∈ s.generation.unmerged) := by
  simp only [← RowIndex.count_eq] at hterms hopen
  obtain ⟨first, hfirst, hrun⟩ := run_of_open hwidth hne hterms hopen
  have hcubes := isCubes_first hterms hwidth hfirst
  have hcount : width < 0 + (width + 1) := by omega
  refine ⟨first, hfirst, exists_loop (width + 1) hcubes hcount, fun stages last hl => ?_⟩
  have hgenerations := hl.map_generation_eq hcubes hcount
  have hlength := hl.length_add_le hcubes hopen (Nat.zero_le width)
  refine ⟨by simpa using hlength, by rw [hrun, hgenerations], ?_, fun g s hs => ?_⟩
  · rw [primeImplicants, hrun, hl.found_eq hcubes, hgenerations]
    rfl
  · obtain ⟨hnumber, h⟩ := hl.isCubes hcubes hs
    have hg : s.generation.number = g := hnumber.trans (Nat.zero_add g)
    refine ⟨hg, h.nodup, fun p => hg ▸ h.mem p, fun i hi => ?_, hg ▸ h.advance_eq_ok,
      fun i hi => ⟨Generation.mem_unmerged_iff hi, ?_⟩⟩
    · rw [h.full i hi]
      rfl
    · exact hl.mem_found_iff hcubes rfl (List.mem_of_getElem? hs) hi

/-- Five rows of three variables, out of order and one of them twice: the loop takes three
iterations, as many as there are variables, and each member of the second one that is not merged is
found. -/
theorem loop_spec_of_five_rows :
    3 ≤ maxVariables ∧ [7, 0, 4, 2, 6, 0] ≠ [] ∧ (∀ t ∈ [7, 0, 4, 2, 6, 0], t < 2 ^ 3) ∧
      (∃ t < 2 ^ 3, t ∉ [7, 0, 4, 2, 6, 0]) ∧
      ∃ first stages last, Loop ⟨⟨0, first⟩, []⟩ stages last ∧ stages.length = 3 ∧
        last.found.map (·.pattern.text) = ["11-", "--0"] ∧
        ∀ s, stages[1]? = some s → ∀ i ∈ s.generation.members,
          (i ∈ last.found ↔ ¬ ∃ m ∈ s.generation.merges, m.left = i ∨ m.right = i) := by
  have hwidth : 3 ≤ maxVariables := by decide
  have hne : [7, 0, 4, 2, 6, 0] ≠ [] := by decide
  have hterms : ∀ t ∈ [7, 0, 4, 2, 6, 0], t < 2 ^ 3 := by decide
  have hopen : ∃ t < 2 ^ 3, t ∉ [7, 0, 4, 2, 6, 0] := ⟨1, by decide, by decide⟩
  obtain ⟨first, -, ⟨stages, last, hl⟩, hspec⟩ := loop_spec hwidth hne hterms hopen
  obtain ⟨-, hrun, hprimes, hstages⟩ := hspec stages last hl
  obtain ⟨gs, hgs, hlength⟩ : ∃ gs,
      run [7, 0, 4, 2, 6, 0] 3 = .ok (.generations gs) ∧ gs.length = 3 := ⟨_, rfl, rfl⟩
  have htexts : (primeImplicants [7, 0, 4, 2, 6, 0] 3).map (·.map (·.pattern.text))
      = .ok ["11-", "--0"] := by rfl
  rw [hprimes] at htexts
  cases hgs.symm.trans hrun
  refine ⟨hwidth, hne, hterms, hopen, first, stages, last, hl, by simpa using hlength,
    Except.ok.inj htexts, fun s hs i hi => ?_⟩
  obtain ⟨hmerge, hfound⟩ := (hstages 1 s hs).2.2.2.2.2 i hi
  exact hfound.trans hmerge

end PrimeSearch
end TwoLevel
