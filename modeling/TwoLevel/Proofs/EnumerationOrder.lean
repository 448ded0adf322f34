/-
# The order of prime implicants by their terms

The prime implicants come by their number of free positions, and those with as many by their terms,
compared as ascending sequences.  The order of two of them can be told from the two alone, so the
list depends on nothing but the set of its members.

It is also the order that settles a tie.  Of the implicants that cover most of the open terms the
choice picks the first of the list, which is the least in this order.

* `lt_of_first_difference`: which of two ascending lists is the lesser one;
* `Pattern.terms_lt_terms`: patterns in order have their rows in order;
* `PrimeSearch.pairwise_listedBefore`: the search finds the prime implicants in this order;
* `Cover.isLeastBest_of_selected`: a pick from a list in this order;
* `primeImplicants_in_order`: the order, that there is no other list in it, and the ties.
-/
import TwoLevel.Proofs.DiscoveryOrder
import TwoLevel.Proofs.GreedyPicks

namespace TwoLevel

/-! ## 1. Ascending lists -/

/-- The first number that two ascending lists do not share makes the one with it the lesser, unless
the other list ends before. -/
theorem lt_of_first_difference {xs ys : List Nat} (hx : xs.Pairwise (· < ·))
    (hy : ys.Pairwise (· < ·)) {t u : Nat} (ht : t ∈ xs) (ht' : t ∉ ys) (hu : u ∈ ys) (htu : t < u)
    (hbelow : ∀ s < t, (s ∈ xs ↔ s ∈ ys)) : xs < ys := by
  induction xs generalizing ys with
  | nil => cases ht
  | cons x xs ih =>
    cases ys with
    | nil => cases hu
    | cons y ys =>
      obtain ⟨hx, hxs⟩ := List.pairwise_cons.mp hx
      obtain ⟨hy, hys⟩ := List.pairwise_cons.mp hy
      have hxt : x ≤ t := by
        rcases List.mem_cons.mp ht with rfl | ht
        · exact Nat.le_refl t
        · exact Nat.le_of_lt (hx t ht)
      rw [List.cons_lt_cons_iff]
      rcases Nat.lt_trichotomy x y with hlt | rfl | hgt
      · exact .inl hlt
      · -- the heads agree, so the first difference is behind them
        have hne : t ≠ x := fun e => ht' (e ▸ List.mem_cons_self)
        have htail : t ∈ xs := (List.mem_cons.mp ht).resolve_left hne
        have hlt : x < t := hx t htail
        refine .inr ⟨rfl, ih hxs hys htail (List.not_mem_of_not_mem_cons ht') ?_ fun s hs => ?_⟩
        · exact (List.mem_cons.mp hu).resolve_left (by omega)
        · have hshared := hbelow s hs
          rw [List.mem_cons, List.mem_cons] at hshared
          by_cases hsx : s = x
          · rw [hsx]
            exact iff_of_false (fun h => Nat.lt_irrefl x (hx x h)) fun h => Nat.lt_irrefl x (hy x h)
          · rwa [or_iff_right hsx, or_iff_right hsx] at hshared
      · -- a lesser head of the other list would be shared
        have hmem := (hbelow y (Nat.lt_of_lt_of_le hgt hxt)).mpr List.mem_cons_self
        rcases List.mem_cons.mp hmem with rfl | hmem
        · exact absurd hgt (Nat.lt_irrefl y)
        · exact absurd (hx y hmem) (Nat.lt_asymm hgt)

/-! ## 2. The order of implicants -/

/-- A pattern that precedes one with as many rows has its rows before those of the other. -/
theorem Pattern.terms_lt_terms {p q : Pattern} (hw : q.width = p.width)
    (hc : p.freeCount ≤ q.freeCount) (h : p.Precedes q) : p.terms < q.terms := by
  obtain ⟨t, hp, hq, hbelow⟩ := h
  obtain ⟨u, htu, hu⟩ := exists_lt_of_agree hw hc hp hq hbelow
  refine lt_of_first_difference p.pairwise_terms q.pairwise_terms (mem_terms.mpr hp) ?_
    (mem_terms.mpr hu) htu fun s hs => ?_
  · rw [mem_terms, hq]
    exact Bool.noConfusion
  · rw [mem_terms, mem_terms, hbelow s hs]

namespace Implicant

variable {i j : Implicant}

/-- The order by the number of free positions, and then by the ascending sequence of terms. -/
def ListedBefore (i j : Implicant) : Prop :=
  i.pattern.freeCount < j.pattern.freeCount ∨
    i.pattern.freeCount = j.pattern.freeCount ∧ i.covered.toList < j.covered.toList

theorem ListedBefore.asymm (h : i.ListedBefore j) : ¬ j.ListedBefore i := by
  rintro (h' | ⟨e', h'⟩)
  · rcases h with h | ⟨e, -⟩ <;> omega
  · rcases h with h | ⟨-, h⟩
    · omega
    · exact List.lt_asymm h h'

end Implicant

open Implicant (ListedBefore)

variable {terms : List Nat} {width : Nat}

/-- **The search finds the prime implicants in order.** -/
theorem PrimeSearch.pairwise_listedBefore {s : PrimeSearch} (h : run terms width = .ok s)
    (hterms : terms.Pairwise (· < ·)) : s.primes.Pairwise ListedBefore := by
  have hprimes := arePrimes_of_run h
  refine (List.pairwise_map.mp (pairwise_primes h hterms)).imp_of_mem fun hi hj hij => ?_
  refine hij.imp id fun ⟨hcount, hprecedes⟩ => ⟨hcount, ?_⟩
  have hw := (hprimes.of_mem hj).1.trans (hprimes.of_mem hi).1.symm
  rw [hprimes.full _ hi, hprimes.full _ hj]
  exact Pattern.terms_lt_terms hw (Nat.le_of_eq hcount) hprecedes

/-! ## 3. Ties -/

/-- Of the implicants of a list that cover most of the open terms, and some at least, the one that
is listed before all others. -/
structure Implicant.IsLeastBest (is : List Implicant) (need : TermSet) (i : Implicant) : Prop where
  mem : i ∈ is
  pos : 0 < i.countIn need
  le : ∀ j ∈ is, j.countIn need ≤ i.countIn need
  eq_or_listedBefore : ∀ j ∈ is, j.countIn need = i.countIn need → j = i ∨ i.ListedBefore j

namespace Selection

variable {is : List Implicant} {essential picked taken : List (Fin is.length)} {k : Fin is.length}

/-- In a list in order the first best place has the least of the best implicants. -/
theorem IsFirstBest.isLeastBest (his : is.Pairwise ListedBefore)
    (h : IsFirstBest is (openAfter is terms taken) taken k) :
    Implicant.IsLeastBest is (openAfter is terms taken) (is.get k) := by
  refine ⟨List.getElem_mem _, h.pos, fun j hj => ?_, fun j hj heq => ?_⟩
  · obtain ⟨n, hn, rfl⟩ := List.mem_iff_getElem.mp hj
    by_cases hm : ⟨n, hn⟩ ∈ taken
    · exact (Nat.le_of_eq (countIn_openAfter_of_mem hm)).trans (Nat.zero_le _)
    · exact h.le ⟨n, hn⟩ hm
  · obtain ⟨n, hn, rfl⟩ := List.mem_iff_getElem.mp hj
    have hm : ⟨n, hn⟩ ∉ taken := fun hm =>
      Nat.ne_of_gt h.pos (heq.symm.trans (countIn_openAfter_of_mem hm))
    rcases Nat.lt_trichotomy n k with hlt | rfl | hgt
    · exact absurd heq (Nat.ne_of_lt (h.lt ⟨n, hn⟩ hm hlt))
    · exact .inl rfl
    · exact .inr (List.pairwise_iff_getElem.mp his k n k.isLt hn hgt)

/-- What is chosen without a mark is chosen after the essential implicants. -/
theorem exists_picked_of_split {before after : List Implicant} {i : Implicant}
    (h : essential.map (fun k => (is.get k).mark true) ++ picked.map is.get = before ++ i :: after)
    (hi : i.essential = false) :
    ∃ ks k ls, picked = ks ++ k :: ls ∧ i = is.get k ∧
      before = essential.map (fun k => (is.get k).mark true) ++ ks.map is.get := by
  have hmarked : i ∉ essential.map (fun k => (is.get k).mark true) := by
    intro hmem
    obtain ⟨k, -, rfl⟩ := List.mem_map.mp hmem
    cases hi
  rcases List.append_eq_append_iff.mp h with ⟨cs, hbefore, hpicked⟩ | ⟨cs, hessential, hrest⟩
  · obtain ⟨ks, ms, rfl, hks, hms⟩ := List.map_eq_append_iff.mp hpicked
    obtain ⟨k, ls, rfl, hk, -⟩ := List.map_eq_cons_iff.mp hms
    exact ⟨ks, k, ls, rfl, hk.symm, hks ▸ hbefore⟩
  · cases cs with
    | nil =>
      obtain ⟨k, ls, rfl, hk, -⟩ := List.map_eq_cons_iff.mp hrest.symm
      refine ⟨[], k, ls, rfl, hk.symm, ?_⟩
      rw [List.map_nil, hessential, List.append_assoc, List.append_nil, List.append_nil]
    | cons c cs =>
      cases hrest
      exact absurd (hessential ▸ List.mem_append_right _ List.mem_cons_self) hmarked

/-- Marks do not change which terms are left open. -/
theorem remaining_eq_openAfter (ks : List (Fin is.length)) :
    remaining (.ofList terms) (essential.map (fun k => (is.get k).mark true) ++ ks.map is.get)
      = openAfter is terms (essential ++ ks) := by
  rw [openAfter, List.map_append]
  exact Ascending.ext_mem fun t => by
    simp only [mem_remaining, List.forall_mem_append, List.forall_mem_map]
    rfl

end Selection

theorem Demand.eq_of_ofTerms_eq_some {vs : Variables} {targets : TermSet}
    (h : ofTerms terms vs = .some targets) : targets = .ofList terms := by
  simp only [ofTerms, ofRows] at h
  split at h
  · cases h
  · split at h
    · cases h
    · cases h
      rfl

namespace Cover

variable {is : List Implicant} {vs : Variables} {form : NormalForm} {c : Cover}

/-- What a cover takes is a choice among the implicants, or nothing for a constant function. -/
theorem selected_eq_or_eq_nil (h : select is terms vs form = .ok c) :
    c.selected = (Selection.choose is (.ofList terms)).selected ∨ c.selected = [] := by
  unfold select ofDemand at h
  split at h
  · cases h
    exact .inr rfl
  · cases h
    exact .inr rfl
  · next targets hdemand =>
    obtain ⟨text, -, rfl⟩ := map_eq_ok_iff.mp h
    rw [Demand.eq_of_ofTerms_eq_some hdemand]
    exact .inl rfl

/-- **Ties go to the least implicant.**  A cover takes its implicants from a list in order.  Each
that is not essential is the least of those that cover most of what the ones before leave open. -/
theorem isLeastBest_of_selected (his : is.Pairwise ListedBefore)
    (h : select is terms vs form = .ok c) {before after : List Implicant} {i : Implicant}
    (hc : c.selected = before ++ i :: after) (hi : i.essential = false) :
    Implicant.IsLeastBest is (Selection.remaining (.ofList terms) before) i := by
  rcases selected_eq_or_eq_nil h with heq | hnil
  · obtain ⟨essential, picked, hselected, hchoice⟩ := Selection.exists_greedyChoice is terms
    rw [heq, hselected] at hc
    obtain ⟨ks, k, ls, hpicked, rfl, rfl⟩ := Selection.exists_picked_of_split hc hi
    rw [Selection.remaining_eq_openAfter]
    exact (hchoice.isFirstBest ks k ls hpicked).isLeastBest his
  · rw [hnil] at hc
    exact absurd hc (List.append_ne_nil_of_right_ne_nil _ (List.cons_ne_nil _ _)).symm

end Cover

/-- **The order of the prime implicants.**  For rows in order of not too many variables the search
succeeds, and its result is in order by the number of free positions and then by the ascending
sequence of terms.  No other list with the same members is in this order.  Whenever a cover is
made from the result, for whatever terms, each of its implicants that is not essential is the first
in the order among those that cover most of what the ones before leave open. -/
theorem primeImplicants_in_order (hwidth : width ≤ maxVariables)
    (hsorted : terms.Pairwise (· < ·)) (hterms : ∀ t ∈ terms, t < RowIndex.count width) :
    ∃ is, primeImplicants terms width = .ok is ∧
      is.Pairwise ListedBefore ∧
      (∀ js : List Implicant, (∀ i, i ∈ js ↔ i ∈ is) → js.Pairwise ListedBefore → js = is) ∧
      ∀ (targets : List Nat) (vs : Variables) (form : NormalForm) (c : Cover),
        Cover.select is targets vs form = .ok c →
        ∀ before i after, c.selected = before ++ i :: after → i.essential = false →
          Implicant.IsLeastBest is (Selection.remaining (.ofList targets) before) i := by
  obtain ⟨s, hs⟩ := PrimeSearch.exists_run hwidth hterms
  have hprimes : s.primes.Pairwise ListedBefore := PrimeSearch.pairwise_listedBefore hs hsorted
  refine ⟨s.primes, by rw [primeImplicants, hs]; rfl, hprimes, fun js hmem hjs => ?_, ?_⟩
  · exact eq_of_pairwise_of_mem_iff (fun _ _ => ListedBefore.asymm) hjs hprimes hmem
  · intro targets vs form c hc before i after hsplit hi
    exact Cover.isLeastBest_of_selected hprimes hc hsplit hi

/-- Six rows of three variables that lie on a ring.  The prime implicants have two rows each, and
they come in the order of these. -/
theorem primeImplicants_in_order_cyclic :
    3 ≤ maxVariables ∧ [0, 1, 2, 5, 6, 7].Pairwise (· < ·) ∧
      (∀ t ∈ [0, 1, 2, 5, 6, 7], t < RowIndex.count 3) ∧
      ∃ is, primeImplicants [0, 1, 2, 5, 6, 7] 3 = .ok is ∧ is.Pairwise ListedBefore ∧
        is.map (·.covered.toList) = [[0, 1], [0, 2], [1, 5], [2, 6], [5, 7], [6, 7]] := by
  have hwidth : 3 ≤ maxVariables := by decide
  have hsorted : [0, 1, 2, 5, 6, 7].Pairwise (· < ·) := by decide
  have hterms : ∀ t ∈ [0, 1, 2, 5, 6, 7], t < RowIndex.count 3 := by decide
  obtain ⟨is, his, hpairs, -⟩ := primeImplicants_in_order hwidth hsorted hterms
  have hlist : (primeImplicants [0, 1, 2, 5, 6, 7] 3).map (·.map (·.covered.toList))
      = .ok [[0, 1], [0, 2], [1, 5], [2, 6], [5, 7], [6, 7]] := by rfl
  rw [his] at hlist
  exact ⟨hwidth, hsorted, hterms, is, his, hpairs, Except.ok.inj hlist⟩

end TwoLevel
