/-
# Essential implicants

An implicant is essential when it is the only one of the list to cover some term.  That is a fact
about one term; it says as well that every choice of implicants which covers what the list can
cover must take this one.  Two equal implicants are never essential, for either of them will do.

Implicants are told apart by their places in the list.

* `Selection.mem_essentialsOf`: a candidate is chosen for the first term that it alone covers;
* `Implicant.exists_isSole_iff`: to be the only one for some term is to be in every choice that
  suffices;
* `Selection.exists_essential_places`: the essential places, in the order of these terms;
* `CoverageTable.exists_isSole_iff`: the rows of a coverage table tell the same;
* `Cover.select_essential`: what a cover marks as essential.
-/
import Mathlib.Data.Finset.Card
import Mathlib.Data.Fintype.Basic
import Mathlib.Order.Bounds.Basic
import TwoLevel.CoverageTable
import TwoLevel.Proofs.Coverage
import TwoLevel.Proofs.DiscoveryOrder
import TwoLevel.Proofs.Rendering

namespace TwoLevel

/-! ## 1. The order of essential implicants -/

namespace Selection

variable {cs : List Candidate} {targets : TermSet}

theorem asymm_term (e f : Essential) (h : e.term < f.term) : ¬ f.term < e.term :=
  Nat.lt_asymm h

theorem pairwise_soles (cs : List Candidate) (targets : TermSet) :
    (targets.toList.filterMap fun t => (sole? cs t).map fun c => Essential.mk t c).Pairwise
      fun e f => e.term < f.term := by
  refine List.pairwise_filterMap.mpr (targets.pairwise.imp ?_)
  intro s t hst e he f hf
  obtain ⟨c, -, rfl⟩ := Option.map_eq_some_iff.mp he
  obtain ⟨d, -, rfl⟩ := Option.map_eq_some_iff.mp hf
  exact hst

/-- **A candidate is essential for the first term that it alone covers.** -/
theorem mem_essentialsOf {e : Essential} :
    e ∈ essentialsOf cs targets ↔ e.term ∈ targets ∧ sole? cs e.term = some e.candidate ∧
      ∀ t ∈ targets, ∀ c, sole? cs t = some c → c.place = e.candidate.place → e.term ≤ t := by
  have hmem : ∀ f : Essential,
      (f ∈ targets.toList.filterMap fun t => (sole? cs t).map fun c => Essential.mk t c) ↔
        f.term ∈ targets ∧ sole? cs f.term = some f.candidate := by
    intro f
    rw [List.mem_filterMap]
    constructor
    · rintro ⟨t, ht, hf⟩
      obtain ⟨c, hc, rfl⟩ := Option.map_eq_some_iff.mp hf
      exact ⟨ht, hc⟩
    · rintro ⟨ht, hc⟩
      exact ⟨f.term, ht, by rw [hc]; rfl⟩
  rw [essentialsOf, mem_distinctOn_iff asymm_term (pairwise_soles cs targets), hmem, and_assoc]
  refine and_congr_right fun _ => and_congr_right fun he => ?_
  constructor
  · intro hfirst t ht c hc hplace
    rcases hfirst ⟨t, c⟩ ((hmem _).mpr ⟨ht, hc⟩) hplace with rfl | hlt
    · exact Nat.le_refl t
    · exact Nat.le_of_lt hlt
  · intro hfirst f hf hplace
    obtain ⟨hft, hfc⟩ := (hmem f).mp hf
    rcases Nat.eq_or_lt_of_le (hfirst f.term hft f.candidate hfc hplace) with heq | hlt
    · rw [← heq, he] at hfc
      cases e
      cases f
      cases heq
      cases hfc
      exact .inl rfl
    · exact .inr hlt

/-- A candidate that alone covers a term is chosen, for this term or for one before it. -/
theorem exists_mem_essentialsOf {t : Nat} {c : Candidate} (ht : t ∈ targets)
    (h : sole? cs t = some c) : ∃ e ∈ essentialsOf cs targets, e.candidate.place = c.place := by
  have hkey : c.place ∈ (essentialsOf cs targets).map (·.candidate.place) := by
    rw [essentialsOf, mem_map_distinctOn, List.map_filterMap]
    exact List.mem_filterMap.mpr ⟨t, ht, by rw [h]; rfl⟩
  exact List.mem_map.mp hkey

theorem pairwise_essentialsOf (cs : List Candidate) (targets : TermSet) :
    (essentialsOf cs targets).Pairwise fun e f => e.term < f.term :=
  (pairwise_soles cs targets).sublist (distinctOn_sublist _)

end Selection

/-! ## 2. Places -/

namespace Candidate

variable {is : List Implicant} {cs : List Candidate}

/-- The implicant at a place of the list. -/
def ofPlace (is : List Implicant) (k : Fin is.length) : Candidate := ⟨is.get k, k⟩

theorem ofPlace_mem (is : List Implicant) (k : Fin is.length) : ofPlace is k ∈ ofList is :=
  mem_ofList.mpr (List.getElem?_eq_getElem k.isLt)

theorem ofPlace_injective (is : List Implicant) : Function.Injective (ofPlace is) :=
  fun _ _ h => Fin.ext (congrArg place h)

theorem exists_eq_ofPlace {c : Candidate} (hc : c ∈ ofList is) : ∃ k, c = ofPlace is k := by
  obtain ⟨hlt, hi⟩ := List.getElem?_eq_some_iff.mp (mem_ofList.mp hc)
  refine ⟨⟨c.place, hlt⟩, ?_⟩
  rw [ofPlace, List.get_eq_getElem, hi]

theorem pairwise_place_ofList (is : List Implicant) :
    (ofList is).Pairwise fun c d => c.place < d.place := by
  have hplaces : (ofList is).map (·.place) = List.range is.length := by
    rw [ofList, List.map_map, List.range_eq_range', ← List.zipIdx_map_snd]
    rfl
  exact List.pairwise_map.mp (hplaces ▸ List.pairwise_lt_range)

/-- Candidates are the implicants at some places. -/
theorem exists_map_ofPlace (h : ∀ c ∈ cs, c ∈ ofList is) :
    ∃ places : List (Fin is.length), cs = places.map (ofPlace is) := by
  induction cs with
  | nil => exact ⟨[], rfl⟩
  | cons c cs ih =>
    obtain ⟨k, hk⟩ := exists_eq_ofPlace (h c List.mem_cons_self)
    obtain ⟨ks, hks⟩ := ih fun d hd => h d (List.mem_cons_of_mem c hd)
    exact ⟨k :: ks, by rw [List.map_cons, ← hk, ← hks]⟩

end Candidate

namespace Implicant

variable {is : List Implicant} {terms : List Nat} {t : Nat} {k : Fin is.length}

/-- The implicant at a place is the only one of the list that covers a term. -/
def IsSole (is : List Implicant) (t : Nat) (k : Fin is.length) : Prop :=
  ∀ m : Fin is.length, (is.get m).covers t = true ↔ m = k

instance : Decidable (IsSole is t k) :=
  inferInstanceAs (Decidable (∀ m : Fin is.length, (is.get m).covers t = true ↔ m = k))

/-- The listed terms that only the implicant at a place covers. -/
def soleTerms (is : List Implicant) (terms : List Nat) (k : Fin is.length) : Set Nat :=
  {t | t ∈ terms ∧ IsSole is t k}

/-- The implicants at some places cover every listed term that the list can cover. -/
def Suffices (is : List Implicant) (terms : List Nat) (places : Finset (Fin is.length)) : Prop :=
  ∀ t ∈ terms, (∃ i ∈ is, i.covers t = true) → ∃ k ∈ places, (is.get k).covers t = true

instance (places : Finset (Fin is.length)) : Decidable (Suffices is terms places) :=
  inferInstanceAs (Decidable (∀ t ∈ terms, (∃ i ∈ is, i.covers t = true) →
    ∃ k ∈ places, (is.get k).covers t = true))

/-- **The essential implicants are those that cannot be avoided.** -/
theorem exists_isSole_iff :
    (∃ t ∈ terms, IsSole is t k) ↔ ∀ places, Suffices is terms places → k ∈ places := by
  constructor
  · rintro ⟨t, ht, hsole⟩ places hplaces
    have hcover : (is.get k).covers t = true := (hsole k).mpr rfl
    obtain ⟨m, hm, hmt⟩ := hplaces t ht ⟨is.get k, List.get_mem is k, hcover⟩
    exact (hsole m).mp hmt ▸ hm
  · intro hall
    -- all places but this one do not suffice
    have hnot : ¬ Suffices is terms (Finset.univ.erase k) :=
      fun h => Finset.notMem_erase k _ (hall _ h)
    simp only [Suffices, not_forall] at hnot
    obtain ⟨t, ht, ⟨i, hi, hit⟩, hnone⟩ := hnot
    have honly : ∀ m : Fin is.length, (is.get m).covers t = true → m = k := by
      intro m hm
      refine Classical.byContradiction fun hne => hnone ⟨m, ?_, hm⟩
      exact Finset.mem_erase.mpr ⟨hne, Finset.mem_univ m⟩
    obtain ⟨n, hn, rfl⟩ := List.mem_iff_getElem.mp hi
    refine ⟨t, ht, fun m => ⟨honly m, ?_⟩⟩
    rintro rfl
    exact honly ⟨n, hn⟩ hit ▸ hit

end Implicant

namespace Selection

open Candidate (ofList ofPlace)
open Implicant (IsSole soleTerms)

variable {is : List Implicant} {terms : List Nat} {t : Nat} {k : Fin is.length}

/-! ## 3. The essential places -/

theorem sole?_eq_some_iff : sole? (ofList is) t = some (ofPlace is k) ↔ IsSole is t k := by
  constructor
  · intro h m
    constructor
    · exact fun hm => Candidate.ofPlace_injective is (eq_of_sole? h (Candidate.ofPlace_mem is m) hm)
    · rintro rfl
      exact (covers_of_sole? h).2
  · intro h
    have hmem : ∀ c, c ∈ (ofList is).filter (·.implicant.covers t) ↔ c = ofPlace is k := by
      intro c
      rw [List.mem_filter]
      constructor
      · rintro ⟨hc, hct⟩
        obtain ⟨m, rfl⟩ := Candidate.exists_eq_ofPlace hc
        rw [(h m).mp hct]
      · rintro rfl
        exact ⟨Candidate.ofPlace_mem is k, (h k).mpr rfl⟩
    have hnodup : ((ofList is).filter (·.implicant.covers t)).Nodup :=
      ((Candidate.pairwise_place_ofList is).filter _).imp fun hlt e =>
        Nat.ne_of_lt hlt (congrArg Candidate.place e)
    have hperm : ((ofList is).filter (·.implicant.covers t)).Perm [ofPlace is k] :=
      (List.perm_ext_iff_of_nodup hnodup (List.nodup_singleton _)).mpr fun c => by
        rw [hmem, List.mem_singleton]
    rw [sole?, List.perm_singleton.mp hperm]

/-- **The essential places**, each once and in the order of the first term that only the implicant
there covers. -/
theorem exists_essential_places (is : List Implicant) (terms : List Nat) :
    ∃ places : List (Fin is.length),
      (choose is (.ofList terms)).essentials.map (·.candidate) = places.map (ofPlace is) ∧
      (∀ k, k ∈ places ↔ ∃ t ∈ terms, IsSole is t k) ∧
      places.Pairwise fun k l => ∃ s t, IsLeast (soleTerms is terms k) s ∧
        IsLeast (soleTerms is terms l) t ∧ s < t := by
  obtain ⟨places, hplaces⟩ : ∃ places : List (Fin is.length),
      (essentialsOf (ofList is) (.ofList terms)).map (·.candidate) = places.map (ofPlace is) := by
    refine Candidate.exists_map_ofPlace fun c hc => ?_
    obtain ⟨e, he, rfl⟩ := List.mem_map.mp hc
    exact candidate_mem_of_mem_essentialsOf he
  have hleast : ∀ e ∈ essentialsOf (ofList is) (.ofList terms), ∀ k,
      e.candidate = ofPlace is k → IsLeast (soleTerms is terms k) e.term := by
    intro e he k hk
    obtain ⟨hterm, hsole, hfirst⟩ := mem_essentialsOf.mp he
    rw [hk] at hsole hfirst
    refine ⟨⟨Ascending.mem_ofList.mp hterm, sole?_eq_some_iff.mp hsole⟩, fun t ht => ?_⟩
    exact hfirst t (Ascending.mem_ofList.mpr ht.1) _ (sole?_eq_some_iff.mpr ht.2) rfl
  refine ⟨places, hplaces, fun k => ?_, ?_⟩
  · rw [← List.mem_map_of_injective (Candidate.ofPlace_injective is), ← hplaces, List.mem_map]
    constructor
    · rintro ⟨e, he, hk⟩
      exact ⟨e.term, (hleast e he k hk).1⟩
    · rintro ⟨t, ht, hsole⟩
      obtain ⟨e, he, hplace⟩ := exists_mem_essentialsOf (Ascending.mem_ofList.mpr ht)
        (sole?_eq_some_iff.mpr hsole)
      exact ⟨e, he, (Candidate.placedIn_ofList is).eq_of_place_eq
        (candidate_mem_of_mem_essentialsOf he) (Candidate.ofPlace_mem is k) hplace⟩
  · have hpairs : ((essentialsOf (ofList is) (.ofList terms)).map (·.candidate)).Pairwise fun c d =>
        ∀ k l, c = ofPlace is k → d = ofPlace is l → ∃ s t, IsLeast (soleTerms is terms k) s ∧
          IsLeast (soleTerms is terms l) t ∧ s < t := by
      refine List.pairwise_map.mpr ((pairwise_essentialsOf _ _).imp_of_mem ?_)
      intro e f he hf hlt k l hk hl
      exact ⟨e.term, f.term, hleast e he k hk, hleast f hf l hl, hlt⟩
    rw [hplaces, List.pairwise_map] at hpairs
    exact hpairs.imp fun h => h _ _ rfl rfl

/-- The essential implicants come first, with their marks. -/
theorem selected_choose {targets : TermSet} {places : List (Fin is.length)}
    (h : (choose is targets).essentials.map (·.candidate) = places.map (ofPlace is)) :
    (choose is targets).selected = places.map (fun k => (is.get k).mark true)
      ++ (choose is targets).picks.map (·.candidate.implicant) := by
  have hmarked := congrArg (List.map (·.implicant.mark true)) h
  rw [List.map_map, List.map_map] at hmarked
  exact congrArg (· ++ _) hmarked

/-- A place has a marked implicant exactly when it is essential: an equal implicant at another place
would cover the term as well. -/
theorem mark_mem_append_iff {places : List (Fin is.length)} {picks : List Implicant}
    (hmem : ∀ k, k ∈ places ↔ ∃ t ∈ terms, IsSole is t k)
    (hpicks : ∀ i ∈ picks, i.essential = false) :
    (is.get k).mark true ∈ places.map (fun k => (is.get k).mark true) ++ picks ↔
      ∃ t ∈ terms, IsSole is t k := by
  rw [List.mem_append, ← hmem]
  constructor
  · rintro (h | h)
    · obtain ⟨m, hm, heq⟩ := List.mem_map.mp h
      obtain ⟨t, -, honly⟩ := (hmem m).mp hm
      have hcovered : (is.get m).covered = (is.get k).covered :=
        (congrArg Implicant.covered heq :)
      have hkt : (is.get k).covers t = true := by
        rw [Implicant.covers, ← hcovered]
        exact (honly m).mpr rfl
      exact (honly k).mp hkt ▸ hm
    · cases hpicks _ h
  · exact fun hk => .inl (List.mem_map.mpr ⟨k, hk, rfl⟩)

theorem pick_mem {targets : TermSet} {p : Pick} (hp : p ∈ (choose is targets).picks) :
    p.candidate ∈ ofList is :=
  (List.mem_filter.mp (candidate_mem_of_mem_picksOf hp)).1

end Selection

/-! ## 4. Coverage tables -/

variable {is : List Implicant} {terms : List Nat} {vs : Variables} {form : NormalForm}

namespace CoverageTable

open Implicant (IsSole)

variable {table : CoverageTable}

/-- Implicants of the width of the variables have a table. -/
theorem exists_ofImplicants (hw : ∀ i ∈ is, i.pattern.width = vs.size) :
    ∃ table, ofImplicants is terms vs form = .ok table := by
  obtain ⟨rows, hrows⟩ : ∃ rows, collect (rowOf terms vs form) is = .ok rows := by
    refine exists_collect fun i hi => ?_
    obtain ⟨text, htext⟩ : ∃ text, i.render vs form = .ok text :=
      Implicant.exists_render_iff.mpr (hw i hi)
    exact ⟨⟨text, terms.filter i.covers⟩, by rw [rowOf, htext]; rfl⟩
  exact ⟨⟨rows⟩, by rw [ofImplicants, hrows]; rfl⟩

/-- The row of the implicant at a place shows the listed terms that it covers. -/
theorem exists_row (h : ofImplicants is terms vs form = .ok table) (k : Fin is.length) :
    ∃ r, table.rows[(k : Nat)]? = some r ∧
      ∀ t, t ∈ r.covered ↔ t ∈ terms ∧ (is.get k).covers t = true := by
  obtain ⟨rows, hrows, rfl⟩ := map_eq_ok_iff.mp h
  have hrow := congrArg (·[(k : Nat)]?) (collect_eq_ok_iff.mp hrows)
  simp only [List.getElem?_map, List.getElem?_eq_getElem k.isLt, Option.map_some] at hrow
  obtain ⟨r, hr, hok⟩ := Option.map_eq_some_iff.mp hrow.symm
  obtain ⟨text, -, rfl⟩ := map_eq_ok_iff.mp hok.symm
  exact ⟨_, hr, fun t => List.mem_filter⟩

theorem length_rows (h : ofImplicants is terms vs form = .ok table) :
    table.rows.length = is.length := by
  obtain ⟨rows, hrows, rfl⟩ := map_eq_ok_iff.mp h
  simpa using (congrArg List.length (collect_eq_ok_iff.mp hrows)).symm

/-- **A coverage table shows which implicants are essential**: those with a term on their row that
is on no other. -/
theorem exists_isSole_iff (h : ofImplicants is terms vs form = .ok table) (k : Fin is.length) :
    (∃ t ∈ terms, IsSole is t k) ↔
      ∃ t, ∀ (m : Nat) (r : CoverageRow), table.rows[m]? = some r → (t ∈ r.covered ↔ m = k) := by
  constructor
  · rintro ⟨t, ht, hsole⟩
    refine ⟨t, fun m r hr => ?_⟩
    have hm : m < is.length := length_rows h ▸ (List.getElem?_eq_some_iff.mp hr).1
    obtain ⟨r', hr', hmem⟩ := exists_row h ⟨m, hm⟩
    obtain rfl : r = r' := Option.some.inj (hr.symm.trans hr')
    rw [hmem, and_iff_right ht, hsole, Fin.ext_iff]
  · rintro ⟨t, honly⟩
    obtain ⟨r, hr, hmem⟩ := exists_row h k
    have ht : t ∈ terms := ((hmem t).mp ((honly k r hr).mpr rfl)).1
    refine ⟨t, ht, fun m => ?_⟩
    obtain ⟨r', hr', hmem'⟩ := exists_row h m
    rw [Fin.ext_iff, ← honly m r' hr', hmem', and_iff_right ht]

end CoverageTable

/-! ## 5. The cover -/

namespace Cover

open Implicant (IsSole soleTerms Suffices)

/-- Implicants of the width of the variables have a cover. -/
theorem exists_select (hw : ∀ i ∈ is, i.pattern.width = vs.size) :
    ∃ c, select is terms vs form = .ok c := by
  have htext : ∀ targets, ∃ text,
      expressionOf (Selection.choose is targets).selected vs form = .ok text := by
    intro targets
    have hselected : ∀ j ∈ (Selection.choose is targets).selected, j.pattern.width = vs.size := by
      intro j hj
      obtain ⟨i, hi, hpattern, -⟩ := Selection.exists_mem_of_mem_selected hj
      rw [hpattern, hw i hi]
    by_cases hnil : (Selection.choose is targets).selected = []
    · exact ⟨form.empty, by rw [hnil, expressionOf]⟩
    · exact ⟨_, expressionOf_eq_ok hnil hselected⟩
  unfold select ofDemand
  split
  · exact ⟨_, rfl⟩
  · exact ⟨_, rfl⟩
  · next targets _ =>
    obtain ⟨text, htext⟩ := htext targets
    exact ⟨_, map_eq_ok_iff.mpr ⟨text, htext, rfl⟩⟩

/-- **What a cover marks as essential.**  The implicants are any of the width of the variables that
are not marked, and the terms any that are neither none nor all rows.  The implicant at a place is
chosen with a mark exactly when no choice that covers what can be covered can avoid it, and exactly
when its row of the coverage table shows a term that no other row shows.  The marked implicants
come first, each once and in the order of the first term that only they cover. -/
theorem select_essential (hw : ∀ i ∈ is, i.pattern.width = vs.size)
    (hmark : ∀ i ∈ is, i.essential = false) (hne : terms ≠ [])
    (hrows : ¬ ∀ t, t ∈ terms ↔ t < vs.rowCount) :
    ∃ c table, select is terms vs form = .ok c ∧
      CoverageTable.ofImplicants is terms vs form = .ok table ∧ table.rows.length = is.length ∧
      (∀ k : Fin is.length, (is.get k).mark true ∈ c.selected ↔
        ∀ places, Suffices is terms places → k ∈ places) ∧
      (∀ k : Fin is.length, (is.get k).mark true ∈ c.selected ↔ ∃ t, ∀ (m : Nat) (r : CoverageRow),
        table.rows[m]? = some r → (t ∈ r.covered ↔ m = k)) ∧
      ∃ (places : List (Fin is.length)) (picks : List Implicant),
        c.selected = places.map (fun k => (is.get k).mark true) ++ picks ∧
        (∀ i ∈ picks, i.essential = false) ∧ places.Nodup ∧
        places.Pairwise fun k l => ∃ s t, IsLeast (soleTerms is terms k) s ∧
          IsLeast (soleTerms is terms l) t ∧ s < t := by
  obtain ⟨c, hc⟩ : ∃ c, select is terms vs form = .ok c := exists_select hw
  obtain ⟨table, htable⟩ : ∃ table, CoverageTable.ofImplicants is terms vs form = .ok table :=
    CoverageTable.exists_ofImplicants hw
  obtain ⟨places, hplaces, hmem, hpairs⟩ := Selection.exists_essential_places is terms
  obtain ⟨-, hselected, -⟩ := of_select_some (Demand.ofTerms_eq_some hne hrows) hc
  rw [Selection.selected_choose hplaces] at hselected
  have hpicks : ∀ i ∈ (Selection.choose is (.ofList terms)).picks.map (·.candidate.implicant),
      i.essential = false := by
    intro i hi
    obtain ⟨p, hp, rfl⟩ := List.mem_map.mp hi
    exact hmark _ ((Candidate.placedIn_ofList is).mem (Selection.pick_mem hp))
  have hsole : ∀ k : Fin is.length,
      (is.get k).mark true ∈ c.selected ↔ ∃ t ∈ terms, IsSole is t k := by
    intro k
    rw [hselected]
    exact Selection.mark_mem_append_iff hmem hpicks
  refine ⟨c, table, hc, htable, CoverageTable.length_rows htable,
    fun k => (hsole k).trans Implicant.exists_isSole_iff,
    fun k => (hsole k).trans (CoverageTable.exists_isSole_iff htable k), places, _, hselected,
    hpicks, hpairs.imp ?_, hpairs⟩
  rintro k l ⟨s, t, hs, ht, hlt⟩ rfl
  exact Nat.ne_of_lt hlt (hs.unique ht)

/-- The first implicant alone covers the terms 2 and 3, and two equal ones cover the term 0.  The
term 9 is no row and is covered by none. -/
theorem select_essential_of_duplicates :
    let covering : List Nat → Implicant := fun ts =>
      ⟨⟨[.free, .fixed true], by decide⟩, .ofList ts, false⟩
    let is : List Implicant := [covering [2, 3], covering [1], covering [0], covering [0]]
    let vs : Variables := .ofNames ['a', 'b']
    (∀ i ∈ is, i.pattern.width = vs.size) ∧ (∀ i ∈ is, i.essential = false) ∧
      [3, 2, 1, 0, 9] ≠ [] ∧ (¬ ∀ t, t ∈ [3, 2, 1, 0, 9] ↔ t < vs.rowCount) ∧
      ∃ c, select is [3, 2, 1, 0, 9] vs .sop = .ok c ∧
        (covering [2, 3]).mark true ∈ c.selected ∧ (covering [0]).mark true ∉ c.selected := by
  intro covering is vs
  have hw : ∀ i ∈ is, i.pattern.width = vs.size := by decide
  have hmark : ∀ i ∈ is, i.essential = false := by decide
  have hrows : ¬ ∀ t, t ∈ [3, 2, 1, 0, 9] ↔ t < vs.rowCount :=
    fun hall => absurd ((hall 9).mp (by decide)) (by decide)
  obtain ⟨c, -, hc, -, -, hchosen, -⟩ :=
    @select_essential is [3, 2, 1, 0, 9] vs .sop hw hmark (List.cons_ne_nil _ _) hrows
  refine ⟨hw, hmark, List.cons_ne_nil _ _, hrows, c, hc, ?_, fun h => ?_⟩
  · exact (hchosen ⟨0, by decide⟩).mpr (Implicant.exists_isSole_iff.mp ⟨3, by decide, by decide⟩)
  · have hmem := (hchosen ⟨2, by decide⟩).mp h {⟨0, by decide⟩, ⟨1, by decide⟩, ⟨3, by decide⟩}
    exact absurd (hmem (by decide)) (by decide)

end Cover
end TwoLevel
