/-
# The choice against any other cover

Some implicants cover the terms, and each of them lies inside an implicant of the list as far as
the terms go: a rival family.  The choice may have more members than the family, since the best
candidate need not belong to a smallest cover.  It has not many more.

* `Rivals.length_picksOf_le_sum`: the picks are at most the sum of the harmonic numbers of what
  the members of the family cover;
* `Rivals.length_essentials_add_le`: an essential implicant takes a member of its own from the
  family, and that member covers none of the terms left to the picks;
* `Rivals.length_selected_le_of_tight`: when one pick less could not have covered the open terms,
  the choice has no more members than the family;
* `Rivals.length_picks_le`: otherwise it may have more, by the factor of a harmonic number.
-/
import Mathlib.Algebra.Order.BigOperators.Group.List
import Mathlib.Algebra.BigOperators.Ring.Finset
import Mathlib.Algebra.BigOperators.Ring.List
import Mathlib.Algebra.Order.Field.Rat
import Mathlib.Combinatorics.Enumerative.DoubleCounting
import Mathlib.NumberTheory.Harmonic.Defs
import Mathlib.Tactic.GCongr
import Mathlib.Tactic.Linarith
import Mathlib.Tactic.Positivity
import TwoLevel.Proofs.Coverage

namespace TwoLevel

/-! ## 1. Harmonic numbers -/

theorem harmonic_le_harmonic {m n : ℕ} (h : m ≤ n) : harmonic m ≤ harmonic n := by
  refine monotone_nat_of_le_succ (fun k => ?_) h
  rw [harmonic_succ]
  have : (0 : ℚ) ≤ (↑(k + 1))⁻¹ := by positivity
  linarith

/-- Summands up to the one of `g` are at least its inverse. -/
theorem harmonic_add_div_le {m x g : ℕ} (h : m + x ≤ g) :
    harmonic m + (x : ℚ) / g ≤ harmonic (m + x) := by
  induction x with
  | zero => simp
  | succ x ih =>
    have hle : ((m + x + 1 : ℕ) : ℚ) ≤ g := by exact_mod_cast h
    have hinv : (1 : ℚ) / g ≤ (↑(m + x + 1))⁻¹ := by
      rw [one_div]
      gcongr
    have := ih (by omega)
    rw [← Nat.add_assoc, harmonic_succ, Nat.cast_succ, add_div]
    linarith

/-- Shares that make up at least a whole, as fractions of it. -/
theorem one_le_sum_div {α : Type} {xs : List α} {share : α → ℕ} {whole : ℕ} (hpos : 0 < whole)
    (h : whole ≤ (xs.map share).sum) :
    1 ≤ (xs.map fun x => (share x : ℚ) / whole).sum := by
  have hcast : ((xs.map share).sum : ℚ) = (xs.map fun x => (share x : ℚ)).sum := by
    rw [Nat.cast_list_sum, List.map_map]
    rfl
  have hwhole : (whole : ℚ) ≤ (xs.map share).sum := by exact_mod_cast h
  simp only [div_eq_mul_inv]
  rw [List.sum_map_mul_right, ← hcast, ← div_eq_mul_inv, one_le_div (by exact_mod_cast hpos)]
  exact hwhole

/-! ## 2. Terms that an implicant covers -/

/-- The number of terms of a set that the implicant covers. -/
def Implicant.countIn (i : Implicant) (terms : TermSet) : Nat :=
  (terms.filter i.covers).size

theorem Candidate.gain_eq_countIn (c : Candidate) (terms : TermSet) :
    c.gain terms = c.implicant.countIn terms := by
  refine congrArg Ascending.size (Ascending.ext_mem fun t => ?_)
  simp [Implicant.covers, and_comm]

namespace Implicant

variable {i j : Implicant} {js : List Implicant} {terms : TermSet}

theorem countIn_le_size (i : Implicant) (terms : TermSet) : i.countIn terms ≤ terms.size :=
  List.length_filter_le _ _

theorem countIn_pos_iff : 0 < i.countIn terms ↔ ∃ t ∈ terms, i.covers t = true := by
  simp only [countIn, Ascending.size, List.length_pos_iff_exists_mem, ← Ascending.mem_def,
    Ascending.mem_filter]

theorem countIn_le_countIn (h : ∀ t ∈ terms, i.covers t = true → j.covers t = true) :
    i.countIn terms ≤ j.countIn terms := by
  rw [countIn, countIn, Ascending.size, Ascending.size, Ascending.toList_filter,
    Ascending.toList_filter, ← List.countP_eq_length_filter, ← List.countP_eq_length_filter]
  exact List.countP_mono_left h

/-- Of a set, an implicant leaves what it does not cover. -/
theorem countIn_add_size_remaining (i : Implicant) (terms : TermSet) :
    i.countIn terms + (Selection.remaining terms [i]).size = terms.size := by
  simp only [countIn, Ascending.size, Selection.remaining, Ascending.toList_filter, List.all_cons,
    List.all_nil, Bool.and_true]
  exact (List.length_eq_length_filter_add i.covers).symm

/-- What an implicant covers is in part covered by another one and in part left by it. -/
theorem countIn_remaining_add (i j : Implicant) (terms : TermSet) :
    j.countIn (Selection.remaining terms [i]) + j.countIn (terms.filter i.covers)
      = j.countIn terms := by
  have hsplit := List.length_eq_length_filter_add (l := terms.toList.filter j.covers) i.covers
  simp only [List.filter_filter] at hsplit
  simp only [countIn, Ascending.size, Selection.remaining, Ascending.toList_filter, List.all_cons,
    List.all_nil, Bool.and_true, List.filter_filter, hsplit, Bool.and_comm (j.covers _)]
  exact Nat.add_comm _ _

/-- A set is not larger than what implicants that cover it cover one by one. -/
theorem size_le_sum_countIn (h : ∀ t ∈ terms, ∃ j ∈ js, j.covers t = true) :
    terms.size ≤ (js.map (·.countIn terms)).sum := by
  induction js generalizing terms with
  | nil =>
    have hnil : terms.toList = [] := List.eq_nil_iff_forall_not_mem.mpr fun t ht => by
      obtain ⟨j, hj, -⟩ := h t ht
      cases hj
    simp [Ascending.size, hnil]
  | cons i js ih =>
    have hrest : ∀ t ∈ Selection.remaining terms [i], ∃ j ∈ js, j.covers t = true := by
      intro t ht
      obtain ⟨hterm, hi⟩ := Selection.mem_remaining.mp ht
      obtain ⟨j, hj, hjt⟩ := h t hterm
      rcases List.mem_cons.mp hj with rfl | hj
      · simp [hi j (by simp)] at hjt
      · exact ⟨j, hj, hjt⟩
    have hle : (js.map (·.countIn (Selection.remaining terms [i]))).sum
        ≤ (js.map (·.countIn terms)).sum :=
      List.sum_le_sum fun j _ => (countIn_remaining_add i j terms).le.trans' (Nat.le_add_right _ _)
    calc terms.size = i.countIn terms + (Selection.remaining terms [i]).size :=
          (countIn_add_size_remaining i terms).symm
      _ ≤ i.countIn terms + (js.map (·.countIn terms)).sum :=
          Nat.add_le_add_left ((ih hrest).trans hle) _
      _ = ((i :: js).map (·.countIn terms)).sum := by simp

end Implicant

namespace Selection

open Candidate

variable {is js : List Implicant} {cs : List Candidate} {need targets : TermSet}

/-! ## 3. Rivals of the candidates -/

/-- Implicants that cover the open terms, each inside a candidate as far as these go. -/
structure Rivals (cs : List Candidate) (need : TermSet) (js : List Implicant) : Prop where
  covers : ∀ t ∈ need, ∃ j ∈ js, j.covers t = true
  inside : ∀ j ∈ js, ∀ t ∈ need, j.covers t = true →
    ∃ c ∈ cs, ∀ u ∈ need, j.covers u = true → c.implicant.covers u = true

/-- The rivals that cover an open term. -/
def active (need : TermSet) (js : List Implicant) : List Implicant :=
  js.filter fun j => 0 < j.countIn need

namespace Rivals

/-- Choosing candidates takes only those from the list that no rival needs for what is left. -/
theorem remaining {chosen : List Implicant} {rest : List Candidate} (h : Rivals cs need js)
    (hrest : ∀ c ∈ cs, c ∉ rest → c.implicant ∈ chosen) :
    Rivals rest (remaining need chosen) js := by
  refine ⟨fun t ht => h.covers t (mem_remaining.mp ht).1, fun j hj t ht hjt => ?_⟩
  obtain ⟨hneed, hopen⟩ := mem_remaining.mp ht
  obtain ⟨c, hc, hinside⟩ := h.inside j hj t hneed hjt
  refine ⟨c, Classical.byContradiction fun hnot => ?_,
    fun u hu => hinside u (mem_remaining.mp hu).1⟩
  have := hopen c.implicant (hrest c hc hnot)
  simp [hinside t hneed hjt] at this

/-- No rival covers more open terms than the best candidate gains. -/
theorem countIn_le_gain (h : Rivals cs need js) {p : Pick} (hp : bestOf? need cs = some p)
    {j : Implicant} (hj : j ∈ js) : j.countIn need ≤ p.gain := by
  rcases Nat.eq_zero_or_pos (j.countIn need) with hzero | hpos
  · omega
  · obtain ⟨t, ht, hjt⟩ := Implicant.countIn_pos_iff.mp hpos
    obtain ⟨c, hc, hinside⟩ := h.inside j hj t ht hjt
    calc j.countIn need ≤ c.implicant.countIn need := Implicant.countIn_le_countIn hinside
      _ = c.gain need := (c.gain_eq_countIn need).symm
      _ ≤ p.gain := gain_le_of_bestOf? hp hc

/-- Only the active rivals are needed. -/
theorem restrict (h : Rivals cs need js) : Rivals cs need (active need js) := by
  refine ⟨fun t ht => ?_, fun j hj => h.inside j (List.mem_filter.mp hj).1⟩
  obtain ⟨j, hj, hjt⟩ := h.covers t ht
  have hpos : 0 < j.countIn need := Implicant.countIn_pos_iff.mpr ⟨t, ht, hjt⟩
  exact ⟨j, List.mem_filter.mpr ⟨hj, decide_eq_true hpos⟩, hjt⟩

/-! ## 4. Picks against rivals -/

/-- A pick leaves rivals of the candidates that remain. -/
theorem remaining_pick (h : Rivals cs need js) (hcs : PlacedIn is cs) {p : Pick}
    (hp : p.candidate ∈ cs) :
    Rivals (cs.filter (·.place ≠ p.candidate.place))
      (Selection.remaining need [p.candidate.implicant]) js := by
  refine h.remaining fun c hc hnot => ?_
  have hplace : c.place = p.candidate.place := by
    simpa [hc] using hnot
  simp [hcs.eq_of_place_eq hc hp hplace]

/-- **A pick lowers the sum of the harmonic numbers by one.**  The terms that it closes are
shared out among the rivals that cover them, and each rival pays for its share from the upper end
of its harmonic number. -/
theorem sum_harmonic_remaining_add_one_le (h : Rivals cs need js) {p : Pick}
    (hp : bestOf? need cs = some p) :
    (js.map fun j => harmonic (j.countIn (Selection.remaining need [p.candidate.implicant]))).sum
      + 1 ≤ (js.map fun j => harmonic (j.countIn need)).sum := by
  obtain ⟨-, hgain, hpos⟩ := mem_of_bestOf? hp
  let closed := need.filter p.candidate.implicant.covers
  have hclosed : p.gain ≤ (js.map (·.countIn closed)).sum := by
    rw [hgain, gain_eq_countIn]
    exact Implicant.size_le_sum_countIn fun t ht => h.covers t (Ascending.mem_filter.mp ht).1
  have hpay : ∀ j ∈ js,
      harmonic (j.countIn (Selection.remaining need [p.candidate.implicant]))
        + (j.countIn closed : ℚ) / p.gain ≤ harmonic (j.countIn need) := by
    intro j hj
    have hsplit := Implicant.countIn_remaining_add p.candidate.implicant j need
    rw [← hsplit]
    exact harmonic_add_div_le (hsplit.trans_le (h.countIn_le_gain hp hj))
  have hsum := List.sum_le_sum hpay
  rw [List.sum_map_add] at hsum
  have hshare := one_le_sum_div hpos hclosed
  linarith

/-- **The picks are at most the sum of the harmonic numbers of what the rivals cover.**  By
induction on the bound of the picks. -/
theorem length_picksOf_le_sum {count : Nat} (h : Rivals cs need js) (hcs : PlacedIn is cs) :
    ((picksOf count cs need).length : ℚ)
      ≤ (js.map fun j => harmonic (j.countIn need)).sum := by
  have hnonneg : ∀ need : TermSet, 0 ≤ (js.map fun j => harmonic (j.countIn need)).sum := by
    intro need
    refine List.sum_nonneg fun x hx => ?_
    obtain ⟨j, -, rfl⟩ := List.mem_map.mp hx
    exact harmonic_le_harmonic (Nat.zero_le _)
  induction count generalizing cs need with
  | zero => exact hnonneg need
  | succ count ih =>
    rw [picksOf]
    split
    · exact hnonneg need
    · next p hp =>
      have hrest := ih (h.remaining_pick hcs (mem_of_bestOf? hp).1) (hcs.filter _)
      have hstep := h.sum_harmonic_remaining_add_one_le hp
      push_cast [List.length_cons]
      linarith

/-- When so many candidates could not cover the open terms, whatever they gain, there are more
active rivals. -/
theorem lt_length_active (h : Rivals cs need js) {p : Pick} (hp : bestOf? need cs = some p)
    {count : Nat} (htight : count * p.gain < need.size) :
    count < (active need js).length := by
  have hsum := Implicant.size_le_sum_countIn h.restrict.covers
  have hle := List.sum_le_card_nsmul ((active need js).map (·.countIn need)) p.gain
    fun x hx => by
      obtain ⟨j, hj, rfl⟩ := List.mem_map.mp hx
      exact h.restrict.countIn_le_gain hp hj
  rw [List.length_map, Nat.nsmul_eq_mul] at hle
  exact Nat.lt_of_mul_lt_mul_right (htight.trans_le (hsum.trans hle))

end Rivals

/-! ## 5. The choice against rivals -/

/-- The terms that the essential implicants leave open. -/
def openTerms (s : Selection) : TermSet :=
  remaining s.targets (s.essentials.map (·.candidate.implicant))

/-- The candidates that are not essential. -/
def others (is : List Implicant) (targets : TermSet) : List Candidate :=
  (ofList is).filter fun c =>
    c.place ∉ (essentialsOf (ofList is) targets).map (·.candidate.place)

theorem picks_choose (is : List Implicant) (targets : TermSet) :
    (choose is targets).picks
      = picksOf (choose is targets).openTerms.size (others is targets)
          (choose is targets).openTerms := rfl

/-- Whether one pick less could not have closed the open terms, had each closed as many as the
first. -/
def tight (s : Selection) : Bool :=
  match s.picks with
  | [] => true
  | p :: ps => ps.length * p.gain < s.openTerms.size

/-- A choice with at most two picks is tight: the second is made for a term that the first does
not close. -/
theorem tight_of_length_le_two (h : (choose is targets).picks.length ≤ 2) :
    (choose is targets).tight = true := by
  rw [tight]
  split
  · rfl
  · next p ps hp =>
    obtain ⟨hbest, hps⟩ := picksOf_eq_cons (picks_choose is targets ▸ hp)
    obtain ⟨-, hgain, hpos⟩ := mem_of_bestOf? hbest
    rw [gain_eq_countIn] at hgain
    have hsize := p.candidate.implicant.countIn_add_size_remaining (choose is targets).openTerms
    rw [hp, List.length_cons] at h
    refine decide_eq_true ?_
    cases ps with
    | nil =>
      rw [List.length_nil, Nat.zero_mul]
      omega
    | cons q qs =>
      obtain ⟨hbest', -⟩ := picksOf_eq_cons hps.symm
      obtain ⟨-, hgain', hpos'⟩ := mem_of_bestOf? hbest'
      rw [gain_eq_countIn] at hgain'
      have hleft := q.candidate.implicant.countIn_le_size
        (remaining (choose is targets).openTerms [p.candidate.implicant])
      have hone : (q :: qs).length = 1 := by
        rw [List.length_cons] at h ⊢
        omega
      rw [hone, Nat.one_mul]
      omega

theorem nodup_essentialsOf : ((essentialsOf cs targets).map (·.candidate.place)).Nodup :=
  List.pairwise_map.mpr (pairwise_distinctOn _ _)

variable (h : Rivals (ofList is) targets js)

include h

/-- The picks are made against the same rivals. -/
theorem Rivals.after_essentials :
    Rivals (others is targets) (choose is targets).openTerms js := by
  refine h.remaining fun c hc hnot => ?_
  have hplace : c.place ∈ (essentialsOf (ofList is) targets).map (·.candidate.place) := by
    simpa [hc, others] using hnot
  obtain ⟨e, he, hec⟩ := List.mem_map.mp hplace
  have hmem := candidate_mem_of_mem_essentialsOf he
  exact List.mem_map.mpr ⟨e, he, by rw [(placedIn_ofList is).eq_of_place_eq hmem hc hec]⟩

/-- A rival that covers the term of an essential implicant lies inside this. -/
theorem Rivals.inside_essential {e : Essential} (he : e ∈ essentialsOf (ofList is) targets)
    {j : Implicant} (hj : j ∈ js) (hje : j.covers e.term = true) {t : Nat} (ht : t ∈ targets)
    (hjt : j.covers t = true) : e.candidate.implicant.covers t = true := by
  obtain ⟨hterm, hsole⟩ := sole?_of_mem_essentialsOf he
  obtain ⟨c, hc, hinside⟩ := h.inside j hj e.term hterm hje
  rw [← eq_of_sole? hsole hc (hinside e.term hterm hje)]
  exact hinside t ht hjt

/-- A rival covers the term of at most one essential implicant. -/
theorem Rivals.eq_of_covers {e f : Essential} (he : e ∈ essentialsOf (ofList is) targets)
    (hf : f ∈ essentialsOf (ofList is) targets) {j : Implicant} (hj : j ∈ js)
    (hje : j.covers e.term = true) (hjf : j.covers f.term = true) : e = f := by
  obtain ⟨hterm, hsole⟩ := sole?_of_mem_essentialsOf hf
  have hmem := candidate_mem_of_mem_essentialsOf he
  have heq := eq_of_sole? hsole hmem (h.inside_essential he hj hje hterm hjf)
  exact List.inj_on_of_nodup_map nodup_essentialsOf he hf (congrArg Candidate.place heq)

/-- **Each essential implicant takes a rival of its own, and that rival is not active.**  It is
one that covers the term of the essential implicant. -/
theorem Rivals.length_essentials_add_le :
    (choose is targets).essentials.length
      + (active (choose is targets).openTerms js).length ≤ js.length := by
  have hidle : ∀ e ∈ essentialsOf (ofList is) targets, ∀ j ∈ js, j.covers e.term = true →
      j.countIn (choose is targets).openTerms = 0 := by
    intro e he j hj hje
    refine Nat.eq_zero_of_not_pos fun hpos => ?_
    obtain ⟨t, ht, hjt⟩ := Implicant.countIn_pos_iff.mp hpos
    obtain ⟨hterm, hopen⟩ := mem_remaining.mp ht
    have := hopen e.candidate.implicant (List.mem_map.mpr ⟨e, he, rfl⟩)
    simp [h.inside_essential he hj hje hterm hjt] at this
  let idle := js.filter fun j => !decide (0 < j.countIn (choose is targets).openTerms)
  have hcard : (essentialsOf (ofList is) targets).toFinset.card ≤ idle.toFinset.card := by
    refine Finset.card_le_card_of_forall_subsingleton (fun e j => j.covers e.term = true)
      (fun e he => ?_) fun j hj => ?_
    · rw [List.mem_toFinset] at he
      obtain ⟨j, hj, hje⟩ := h.covers e.term (sole?_of_mem_essentialsOf he).1
      refine ⟨j, List.mem_toFinset.mpr (List.mem_filter.mpr ⟨hj, ?_⟩), hje⟩
      simp [hidle e he j hj hje]
    · rintro e ⟨he, hje⟩ f ⟨hf, hjf⟩
      rw [List.mem_toFinset] at he hf hj
      exact h.eq_of_covers he hf (List.mem_filter.mp hj).1 hje hjf
  have hlength : (essentialsOf (ofList is) targets).length ≤ idle.length := by
    rw [← List.toFinset_card_of_nodup (nodup_essentialsOf.of_map _)]
    exact hcard.trans (List.toFinset_card_le _)
  have hsplit : js.length
      = (active (choose is targets).openTerms js).length + idle.length :=
    List.length_eq_length_filter_add _
  have hchoice : (choose is targets).essentials = essentialsOf (ofList is) targets := rfl
  rw [hchoice]
  omega

/-- **A tight choice has no more members than any rival family.** -/
theorem Rivals.length_selected_le_of_tight (ht : (choose is targets).tight = true) :
    (choose is targets).selected.length ≤ js.length := by
  have hbound := h.length_essentials_add_le
  have hpicks : (choose is targets).picks.length
      ≤ (active (choose is targets).openTerms js).length := by
    cases hp : (choose is targets).picks with
    | nil => exact Nat.zero_le _
    | cons p ps =>
      rw [tight, hp] at ht
      obtain ⟨hbest, -⟩ := picksOf_eq_cons (picks_choose is targets ▸ hp)
      exact h.after_essentials.lt_length_active hbest (of_decide_eq_true ht)
  rw [selected, List.length_append, List.length_map, List.length_map]
  omega

/-- The picks are at most as many as the rivals left to them, times a harmonic number. -/
theorem Rivals.length_picks_le {g : Nat}
    (hg : ∀ i ∈ is, i.countIn (choose is targets).openTerms ≤ g) :
    ((choose is targets).picks.length : ℚ)
      ≤ harmonic g * (js.length - (choose is targets).essentials.length) := by
  have hrivals := h.after_essentials.restrict
  have hle := List.sum_le_card_nsmul
    ((active (choose is targets).openTerms js).map
      fun j => harmonic (j.countIn (choose is targets).openTerms)) (harmonic g)
    fun x hx => by
      obtain ⟨j, hj, rfl⟩ := List.mem_map.mp hx
      refine harmonic_le_harmonic ?_
      obtain ⟨t, ht, hjt⟩ := Implicant.countIn_pos_iff.mp
        (of_decide_eq_true (List.mem_filter.mp hj).2)
      obtain ⟨c, hc, hinside⟩ := hrivals.inside j hj t ht hjt
      exact (Implicant.countIn_le_countIn hinside).trans
        (hg _ ((placedIn_ofList is).mem (List.mem_filter.mp hc).1))
  rw [List.length_map, nsmul_eq_mul] at hle
  have hactive : ((active (choose is targets).openTerms js).length : ℚ)
      ≤ js.length - (choose is targets).essentials.length := by
    rw [le_sub_iff_add_le']
    exact_mod_cast h.length_essentials_add_le
  rw [picks_choose]
  refine (hrivals.length_picksOf_le_sum ((placedIn_ofList is).filter _)).trans ?_
  calc _ ≤ (active (choose is targets).openTerms js).length * harmonic g := hle
    _ = harmonic g * (active (choose is targets).openTerms js).length := mul_comm _ _
    _ ≤ harmonic g * (js.length - (choose is targets).essentials.length) := by
        gcongr
        exact harmonic_le_harmonic (Nat.zero_le g)

end Selection
end TwoLevel
