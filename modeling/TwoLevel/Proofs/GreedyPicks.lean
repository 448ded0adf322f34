/-
# The picks, one by one

After the essential implicants the choice picks the best of the others, again and again, until
none of them covers an open term.  The loop has no bound of its own: it ends since every pick
closes a term (`Selection.Greedy`).

* `Selection.isBest_of_bestOf?`: the best candidate is the first of those that gain most;
* `Selection.greedy_picksOf`: the picks are a run of the loop to its end;
* `Selection.Greedy.isBest_of_split`, `Selection.Greedy.gain_eq_zero`: what holds at each pick, and
  at the end;
* `Selection.exists_greedyChoice`: the same by the places of the list;
* `Selection.length_selected_choose_le`: no more implicants are chosen than there are terms;
* `Cover.select_greedy`: which implicants a cover takes.
-/
import TwoLevel.Proofs.Essentials
import TwoLevel.Proofs.GreedyBound

namespace TwoLevel
namespace Selection

open Candidate (ofList ofPlace)
open Implicant (IsSole)

variable {is js : List Implicant} {cs : List Candidate} {need : TermSet} {p : Pick}
  {ps before after : List Pick}

/-! ## 1. The best candidate -/

/-- A pick takes the first of the candidates that cover most open terms, and these are not none. -/
structure IsBest (need : TermSet) (cs : List Candidate) (p : Pick) : Prop where
  mem : p.candidate ∈ cs
  gain_eq : p.gain = p.candidate.gain need
  pos : 0 < p.gain
  le : ∀ c ∈ cs, c.gain need ≤ p.gain
  lt : ∀ c ∈ cs, c.place < p.candidate.place → c.gain need < p.gain

/-- Of candidates in order, those before the best gain less. -/
theorem gain_lt_of_bestOf? (hcs : cs.Pairwise fun c d => c.place < d.place)
    (h : bestOf? need cs = some p) {c : Candidate} (hc : c ∈ cs)
    (hlt : c.place < p.candidate.place) : c.gain need < p.gain := by
  induction cs generalizing p with
  | nil => cases hc
  | cons d cs ih =>
    obtain ⟨hd, hcs⟩ := List.pairwise_cons.mp hcs
    -- the first of the list has no candidate before it
    have hfirst : p.candidate ≠ d := by
      rintro rfl
      rcases List.mem_cons.mp hc with rfl | hc
      · exact Nat.lt_irrefl _ hlt
      · exact Nat.lt_asymm hlt (hd c hc)
    unfold bestOf? at h
    split at h
    · next q hq =>
      split at h
      · cases h
        exact absurd rfl hfirst
      · next hgain =>
        cases h
        rcases List.mem_cons.mp hc with rfl | hc
        · exact Nat.lt_of_not_le hgain
        · exact ih hcs hq hc hlt
    · split at h
      · cases h
        exact absurd rfl hfirst
      · cases h

theorem isBest_of_bestOf? (hcs : cs.Pairwise fun c d => c.place < d.place)
    (h : bestOf? need cs = some p) : IsBest need cs p where
  mem := (mem_of_bestOf? h).1
  gain_eq := (mem_of_bestOf? h).2.1
  pos := (mem_of_bestOf? h).2.2
  le _ hc := gain_le_of_bestOf? h hc
  lt _ hc hlt := gain_lt_of_bestOf? hcs h hc hlt

/-! ## 2. The loop -/

/-- A run of the loop to its end.  It stops when no candidate covers an open term, and otherwise
picks the best one and goes on without it and without the terms that it covers. -/
inductive Greedy : List Candidate → TermSet → List Pick → Prop where
  | stop {cs : List Candidate} {need : TermSet} (h : ∀ c ∈ cs, c.gain need = 0) : Greedy cs need []
  | pick {cs : List Candidate} {need : TermSet} {p : Pick} {ps : List Pick}
    (hbest : IsBest need cs p) (hrest : Greedy (cs.filter (·.place ≠ p.candidate.place))
      (remaining need [p.candidate.implicant]) ps) : Greedy cs need (p :: ps)

theorem IsBest.size_remaining_lt (h : IsBest need cs p) :
    (remaining need [p.candidate.implicant]).size < need.size :=
  Selection.size_remaining_lt (Candidate.gain_pos_iff.mp (h.gain_eq ▸ h.pos))

/-- **The loop ends.**  Any bound that the number of open terms does not exceed is as good as
none. -/
theorem greedy_picksOf {count : Nat} (hcs : cs.Pairwise fun c d => c.place < d.place)
    (hcount : need.size ≤ count) : Greedy cs need (picksOf count cs need) := by
  induction count generalizing cs need with
  | zero =>
    refine .stop fun c _ => Nat.le_zero.mp (Nat.le_trans ?_ hcount)
    rw [Candidate.gain_eq_countIn]
    exact c.implicant.countIn_le_size need
  | succ count ih =>
    unfold picksOf
    split
    · next hnone => exact .stop (bestOf?_eq_none_iff.mp hnone)
    · next p hp =>
      have hbest := isBest_of_bestOf? hcs hp
      refine .pick hbest (ih (hcs.filter _) ?_)
      exact Nat.le_of_lt_succ (Nat.lt_of_lt_of_le hbest.size_remaining_lt hcount)

@[simp] theorem remaining_nil : remaining need [] = need :=
  Ascending.ext_mem fun t => by simp

@[simp] theorem remaining_remaining :
    remaining (remaining need is) js = remaining need (is ++ js) :=
  Ascending.ext_mem fun t => by simp [or_imp, forall_and, and_assoc]

namespace Greedy

theorem candidate_mem (h : Greedy cs need ps) (hp : p ∈ ps) : p.candidate ∈ cs := by
  induction h with
  | stop => cases hp
  | pick hbest _ ih =>
    rcases List.mem_cons.mp hp with rfl | hp
    · exact hbest.mem
    · exact (List.mem_filter.mp (ih hp)).1

/-- No place is picked twice. -/
theorem nodup (h : Greedy cs need ps) : (ps.map (·.candidate.place)).Nodup := by
  induction h with
  | stop => exact List.nodup_nil
  | pick _ hrest ih =>
    refine List.nodup_cons.mpr ⟨fun hmem => ?_, ih⟩
    obtain ⟨q, hq, hplace⟩ := List.mem_map.mp hmem
    exact of_decide_eq_true (List.mem_filter.mp (hrest.candidate_mem hq)).2 hplace

/-- There are no more picks than open terms. -/
theorem length_le (h : Greedy cs need ps) : ps.length ≤ need.size := by
  induction h with
  | stop => exact Nat.zero_le _
  | pick hbest _ ih => exact Nat.lt_of_le_of_lt ih hbest.size_remaining_lt

/-- **Each pick is the best** for the terms that are open when it is made, of the candidates that
have not been picked before. -/
theorem isBest_of_split (h : Greedy cs need (before ++ p :: after)) :
    IsBest (remaining need (before.map (·.candidate.implicant)))
      (cs.filter fun c => c.place ∉ before.map (·.candidate.place)) p := by
  induction before generalizing cs need with
  | nil =>
    cases h with
    | pick hbest _ => simpa using hbest
  | cons q before ih =>
    cases h with
    | pick _ hrest =>
      have hfilter : (cs.filter (·.place ≠ q.candidate.place)).filter
          (fun c => c.place ∉ before.map (·.candidate.place))
            = cs.filter fun c => c.place ∉ (q :: before).map (·.candidate.place) := by
        rw [List.filter_filter]
        refine List.filter_congr fun c _ => ?_
        rw [← Bool.decide_and]
        exact decide_eq_decide.mpr (by rw [List.map_cons, List.mem_cons, not_or, and_comm])
      have hbest := ih hrest
      rw [hfilter, remaining_remaining] at hbest
      exact hbest

/-- **At the end no candidate covers an open term.** -/
theorem gain_eq_zero (h : Greedy cs need ps) {c : Candidate} (hc : c ∈ cs)
    (hnot : c.place ∉ ps.map (·.candidate.place)) :
    c.gain (remaining need (ps.map (·.candidate.implicant))) = 0 := by
  induction h with
  | stop h => simpa using h c hc
  | pick _ _ ih =>
    obtain ⟨hne, hnot⟩ := List.ne_and_not_mem_of_not_mem_cons hnot
    simpa using ih (List.mem_filter.mpr ⟨hc, decide_eq_true hne⟩) hnot

end Greedy

/-! ## 3. The choice by places -/

theorem greedy_choose (is : List Implicant) (targets : TermSet) :
    Greedy (others is targets) (choose is targets).openTerms (choose is targets).picks := by
  rw [picks_choose]
  exact greedy_picksOf ((Candidate.pairwise_place_ofList is).filter _) (Nat.le_refl _)

/-- The listed terms that the implicants at some places leave open. -/
def openAfter (is : List Implicant) (terms : List Nat) (places : List (Fin is.length)) : TermSet :=
  remaining (.ofList terms) (places.map is.get)

/-- The place is the first of those whose implicants cover most of the open terms, and these cover
some.  Places that are taken do not count. -/
structure IsFirstBest (is : List Implicant) (need : TermSet) (taken : List (Fin is.length))
    (k : Fin is.length) : Prop where
  pos : 0 < (is.get k).countIn need
  le : ∀ m, m ∉ taken → (is.get m).countIn need ≤ (is.get k).countIn need
  lt : ∀ m, m ∉ taken → m < k → (is.get m).countIn need < (is.get k).countIn need

/-- The places that a choice takes: the essential ones, and then one by one the first best of the
others for the terms that are open by then, until no implicant covers an open term. -/
structure GreedyChoice (is : List Implicant) (terms : List Nat)
    (essential picked : List (Fin is.length)) : Prop where
  mem_essential_iff : ∀ k, k ∈ essential ↔ ∃ t ∈ terms, IsSole is t k
  nodup : (essential ++ picked).Nodup
  isFirstBest : ∀ before k after, picked = before ++ k :: after →
    IsFirstBest is (openAfter is terms (essential ++ before)) (essential ++ before) k
  closed : ∀ m : Fin is.length, (is.get m).countIn (openAfter is terms (essential ++ picked)) = 0

/-- Implicants that have been taken cover no open term. -/
theorem countIn_openAfter_of_mem {terms : List Nat} {places : List (Fin is.length)}
    {k : Fin is.length} (hk : k ∈ places) : (is.get k).countIn (openAfter is terms places) = 0 := by
  refine Nat.eq_zero_of_not_pos fun hpos => ?_
  obtain ⟨t, ht, hkt⟩ := Implicant.countIn_pos_iff.mp hpos
  have hopen := (mem_remaining.mp ht).2 _ (List.mem_map_of_mem hk)
  exact Bool.false_ne_true (hopen.symm.trans hkt)

section Places

variable {α : Type} {xs : List α} {f : α → Candidate} {places : List (Fin is.length)}

theorem map_place (h : xs.map f = places.map (ofPlace is)) :
    xs.map (fun x => (f x).place) = places.map Fin.val := by
  have hplaces := congrArg (List.map Candidate.place) h
  rw [List.map_map, List.map_map] at hplaces
  exact hplaces

theorem map_implicant (h : xs.map f = places.map (ofPlace is)) :
    xs.map (fun x => (f x).implicant) = places.map is.get := by
  have himplicants := congrArg (List.map Candidate.implicant) h
  rw [List.map_map, List.map_map] at himplicants
  exact himplicants

end Places

section Run

variable {terms : List Nat} {essential picked : List (Fin is.length)} {k : Fin is.length}
  (he : (choose is (.ofList terms)).essentials.map (·.candidate) = essential.map (ofPlace is))

include he

/-- The candidates that are left after the essential implicants. -/
theorem ofPlace_mem_others : ofPlace is k ∈ others is (.ofList terms) ↔ k ∉ essential := by
  have hplaces : (essentialsOf (ofList is) (.ofList terms)).map (·.candidate.place)
      = essential.map Fin.val := map_place he
  rw [others, List.mem_filter, and_iff_right (Candidate.ofPlace_mem is k), hplaces,
    decide_eq_true_eq]
  exact not_congr (List.mem_map_of_injective Fin.val_injective)

/-- The terms that are open after the essential implicants and some picks. -/
theorem remaining_openTerms (hp : ps.map (·.candidate) = picked.map (ofPlace is)) :
    remaining (choose is (.ofList terms)).openTerms (ps.map (·.candidate.implicant))
      = openAfter is terms (essential ++ picked) := by
  rw [openTerms, remaining_remaining, map_implicant he, map_implicant hp, openAfter,
    List.map_append]
  rfl

/-- The candidates that are left after the essential implicants and some picks. -/
theorem ofPlace_mem_others_filter (hp : ps.map (·.candidate) = picked.map (ofPlace is)) :
    (ofPlace is k ∈
        (others is (.ofList terms)).filter fun c => c.place ∉ ps.map (·.candidate.place)) ↔
      k ∉ essential ++ picked := by
  rw [List.mem_filter, ofPlace_mem_others he, map_place hp, decide_eq_true_eq, List.mem_append,
    not_or]
  exact and_congr_right fun _ => not_congr (List.mem_map_of_injective Fin.val_injective)

/-- The best candidate is at the first best place. -/
theorem IsBest.isFirstBest (hp : ps.map (·.candidate) = picked.map (ofPlace is))
    (hpk : p.candidate = ofPlace is k)
    (h : IsBest (remaining (choose is (.ofList terms)).openTerms (ps.map (·.candidate.implicant)))
      ((others is (.ofList terms)).filter fun c => c.place ∉ ps.map (·.candidate.place)) p) :
    IsFirstBest is (openAfter is terms (essential ++ picked)) (essential ++ picked) k := by
  rw [remaining_openTerms he hp] at h
  have hgain : p.gain = (is.get k).countIn (openAfter is terms (essential ++ picked)) := by
    rw [h.gain_eq, hpk, Candidate.gain_eq_countIn]
    rfl
  refine ⟨hgain ▸ h.pos, fun m hm => ?_, fun m hm hlt => ?_⟩
  · have hle := h.le _ ((ofPlace_mem_others_filter he hp).mpr hm)
    rw [Candidate.gain_eq_countIn, hgain] at hle
    exact hle
  · have hlt := h.lt _ ((ofPlace_mem_others_filter he hp).mpr hm) (hpk ▸ hlt)
    rw [Candidate.gain_eq_countIn, hgain] at hlt
    exact hlt

variable (hp : (choose is (.ofList terms)).picks.map (·.candidate) = picked.map (ofPlace is))

include hp

/-- No place is taken twice. -/
theorem nodup_places : (essential ++ picked).Nodup := by
  have hrun := greedy_choose is (.ofList terms)
  have hessential : ((choose is (.ofList terms)).essentials.map (·.candidate.place)).Nodup :=
    nodup_essentialsOf
  have hpicked := hrun.nodup
  rw [map_place he] at hessential
  rw [map_place hp] at hpicked
  refine List.nodup_append'.mpr ⟨hessential.of_map _, hpicked.of_map _, fun k hk hk' => ?_⟩
  -- a pick is none of the essential places
  have hmem : ofPlace is k ∈ (choose is (.ofList terms)).picks.map (·.candidate) :=
    hp ▸ List.mem_map_of_mem hk'
  obtain ⟨p, hpick, hpk⟩ := List.mem_map.mp hmem
  have hother := hrun.candidate_mem hpick
  rw [hpk] at hother
  exact (ofPlace_mem_others he).mp hother hk

/-- The choice takes the first best place again and again. -/
theorem greedyChoice (hsole : ∀ k, k ∈ essential ↔ ∃ t ∈ terms, IsSole is t k) :
    GreedyChoice is terms essential picked := by
  have hrun := greedy_choose is (.ofList terms)
  refine ⟨hsole, nodup_places he hp, fun before k after hsplit => ?_, fun m => ?_⟩
  · rw [hsplit, List.map_append, List.map_cons] at hp
    obtain ⟨ps, qs, hps, hbefore, hqs⟩ := List.map_eq_append_iff.mp hp
    obtain ⟨p, rs, rfl, hpk, -⟩ := List.map_eq_cons_iff.mp hqs
    rw [hps] at hrun
    exact IsBest.isFirstBest he hbefore hpk hrun.isBest_of_split
  · by_cases hm : m ∈ essential ++ picked
    · exact countIn_openAfter_of_mem hm
    · obtain ⟨hother, hplace⟩ := List.mem_filter.mp ((ofPlace_mem_others_filter he hp).mpr hm)
      have hzero := hrun.gain_eq_zero hother (of_decide_eq_true hplace)
      rw [remaining_openTerms he hp, Candidate.gain_eq_countIn] at hzero
      exact hzero

end Run

/-- **A choice takes the essential places and then the first best ones.** -/
theorem exists_greedyChoice (is : List Implicant) (terms : List Nat) :
    ∃ essential picked : List (Fin is.length),
      (choose is (.ofList terms)).selected
        = essential.map (fun k => (is.get k).mark true) ++ picked.map is.get ∧
      GreedyChoice is terms essential picked := by
  obtain ⟨essential, hessential, hsole, -⟩ := exists_essential_places is terms
  obtain ⟨picked, hpicked⟩ : ∃ picked : List (Fin is.length),
      (choose is (.ofList terms)).picks.map (·.candidate) = picked.map (ofPlace is) := by
    refine Candidate.exists_map_ofPlace fun c hc => ?_
    obtain ⟨p, hp, rfl⟩ := List.mem_map.mp hc
    exact pick_mem hp
  refine ⟨essential, picked, ?_, greedyChoice hessential hpicked hsole⟩
  rw [selected_choose hessential, map_implicant hpicked]

/-- **No more implicants are chosen than there are terms.**  Each essential one has a term of its
own, and each pick closes one of those that are left. -/
theorem length_selected_choose_le (is : List Implicant) (targets : TermSet) :
    (choose is targets).selected.length ≤ targets.size := by
  have hpicks := (greedy_choose is targets).length_le
  have hsub : (choose is targets).essentials.map (·.term)
      ++ (choose is targets).openTerms.toList ⊆ targets.toList := by
    intro t ht
    rcases List.mem_append.mp ht with ht | ht
    · obtain ⟨e, he, rfl⟩ := List.mem_map.mp ht
      exact (sole?_of_mem_essentialsOf he).1
    · exact (mem_remaining.mp ht).1
  have hnodup : ((choose is targets).essentials.map (·.term)
      ++ (choose is targets).openTerms.toList).Nodup := by
    refine List.nodup_append'.mpr ⟨?_, ?_, fun t ht hopen => ?_⟩
    · exact List.pairwise_map.mpr ((pairwise_essentialsOf _ _).imp Nat.ne_of_lt)
    · exact (choose is targets).openTerms.nodup
    · obtain ⟨e, he, rfl⟩ := List.mem_map.mp ht
      have hcovers := (covers_of_sole? (sole?_of_mem_essentialsOf he).2).2
      have hnot := (mem_remaining.mp hopen).2 _ (List.mem_map_of_mem he)
      exact Bool.false_ne_true (hnot.symm.trans hcovers)
  have hle := (List.subperm_of_subset hnodup hsub).length_le
  rw [List.length_append, List.length_map] at hle
  rw [selected, List.length_append, List.length_map, List.length_map]
  exact Nat.le_trans (Nat.add_le_add_left hpicks _) hle

end Selection

/-! ## 4. The cover -/

theorem size_ofList (terms : List Nat) :
    (Ascending.ofList terms : TermSet).size = terms.toFinset.card := by
  have hmem : (Ascending.ofList terms).toList.toFinset = terms.toFinset := Finset.ext fun t => by
    rw [List.mem_toFinset, List.mem_toFinset, ← Ascending.mem_def, Ascending.mem_ofList]
  rw [Ascending.size, ← List.toFinset_card_of_nodup (Ascending.ofList terms).nodup, hmem]

namespace Cover

variable {is : List Implicant} {terms : List Nat} {vs : Variables} {form : NormalForm} {c : Cover}

/-- **Which implicants a cover takes**, whatever the list, for terms that are neither none nor all
rows.  The essential ones come first and are marked.  Then come the first best ones, one by one
and as they are in the list, for as long as this closes a term.  No place is taken twice, and there
are no more of them than terms. -/
theorem select_greedy (hne : terms ≠ []) (hrows : ¬ ∀ t, t ∈ terms ↔ t < vs.rowCount)
    (h : select is terms vs form = .ok c) :
    ∃ essential picked : List (Fin is.length),
      c.selected = essential.map (fun k => (is.get k).mark true) ++ picked.map is.get ∧
      Selection.GreedyChoice is terms essential picked ∧
      c.selected.length ≤ terms.toFinset.card := by
  obtain ⟨-, hselected, -⟩ := of_select_some (Demand.ofTerms_eq_some hne hrows) h
  obtain ⟨essential, picked, heq, hchoice⟩ := Selection.exists_greedyChoice is terms
  refine ⟨essential, picked, hselected.trans heq, hchoice, ?_⟩
  rw [hselected, ← size_ofList]
  exact Selection.length_selected_choose_le is (.ofList terms)

/-- None is essential.  Three implicants cover two terms, and the first of these is picked, with the
mark that it has in the list.  Of the two that still cover a term the first is picked.  The term 7
is covered by none, and neither 7 nor 9 is a row. -/
theorem select_greedy_of_ties :
    let covering : List Nat → Bool → Implicant := fun ts mark =>
      ⟨⟨[.free, .free], by decide⟩, .ofList ts, mark⟩
    let is : List Implicant :=
      [covering [1] false, covering [0, 1] true, covering [1, 9] false, covering [0, 1] false,
        covering [9] false]
    let vs : Variables := .ofNames ['a', 'b']
    [9, 1, 0, 1, 7] ≠ [] ∧ (¬ ∀ t, t ∈ [9, 1, 0, 1, 7] ↔ t < vs.rowCount) ∧
      ∃ c, select is [9, 1, 0, 1, 7] vs .sop = .ok c ∧
        c.selected = [covering [0, 1] true, covering [1, 9] false] ∧
        ∃ essential picked : List (Fin is.length),
          c.selected = essential.map (fun k => (is.get k).mark true) ++ picked.map is.get ∧
          Selection.GreedyChoice is [9, 1, 0, 1, 7] essential picked ∧ c.selected.length ≤ 4 := by
  intro covering is vs
  have hne : [9, 1, 0, 1, 7] ≠ [] := List.cons_ne_nil _ _
  have hrows : ¬ ∀ t, t ∈ [9, 1, 0, 1, 7] ↔ t < vs.rowCount :=
    fun hall => absurd ((hall 9).mp (by decide)) (by decide)
  obtain ⟨c, hc⟩ : ∃ c, select is [9, 1, 0, 1, 7] vs .sop = .ok c := exists_select (by decide)
  obtain ⟨-, hselected, -⟩ := of_select_some (Demand.ofTerms_eq_some hne hrows) hc
  exact ⟨hne, hrows, c, hc, hselected.trans (by decide), select_greedy hne hrows hc⟩

end Cover
end TwoLevel
