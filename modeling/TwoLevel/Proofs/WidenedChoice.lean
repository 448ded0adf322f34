/-
# The choice among widened implicants

When a variable without influence takes a place among the others, the choice of implicants goes
on as before: an implicant is essential for the two rows that one row has become, every gain is
doubled, and so each pick is the widened pick from before.

* `Selection.sole?_widen`, `Selection.essentialsOf_widen`: the essential implicants and their
  order;
* `Selection.bestOf?_widen`, `Selection.picksOf_widen`: the picks;
* `Minimization.expression_widen`: the text of a form stays the same.
-/
import TwoLevel.Proofs.Essentials
import TwoLevel.Proofs.MinimalForm
import TwoLevel.Proofs.Widening

namespace TwoLevel

open RowIndex (narrow Lifts)

variable {width place : Nat}

/-! ## 1. Implicants -/

namespace Implicant

/-- The implicant has a pattern of a width, and covers all rows of it. -/
def IsCube (width : Nat) (i : Implicant) : Prop := i = ofPattern i.pattern ∧ i.pattern.width = width

variable {i : Implicant} {t : Nat}

theorem IsCube.covers_iff (h : i.IsCube width) (t : Nat) :
    i.covers t = true ↔ i.pattern.covers t = true :=
  covers_iff_of_eq_ofPattern h.1 t

theorem IsCube.lt_of_covers (h : i.IsCube width) (ht : i.covers t = true) :
    t < RowIndex.count width :=
  h.2 ▸ Pattern.lt_of_covers ((h.covers_iff t).mp ht)

theorem IsCube.covers_widen (h : i.IsCube width) (hw : width < maxVariables) (hp : place ≤ width)
    (t : Nat) :
    (i.widen place).covers t = true ↔
      t < RowIndex.count (width + 1) ∧ i.covers (narrow width place t) = true := by
  rw [h.covers_iff, covers, decide_eq_true_eq, widen, mem_covered_ofPattern,
    Pattern.covers_widen (h.2 ▸ hw) (h.2 ▸ hp), h.2]

/-- On a row, the widened implicant looks only at the row without the new bit. -/
theorem IsCube.covers_widen_eq (h : i.IsCube width) (hw : width < maxVariables)
    (hp : place ≤ width) (ht : t < RowIndex.count (width + 1)) :
    (i.widen place).covers t = i.covers (narrow width place t) := by
  rw [Bool.eq_iff_iff, h.covers_widen hw hp]
  exact and_iff_right ht

end Implicant

namespace Candidate

/-- The candidate with the widened implicant, at the same place of the list. -/
def widen (place : Nat) (c : Candidate) : Candidate := ⟨c.implicant.widen place, c.place⟩

theorem ofList_map_widen (is : List Implicant) :
    ofList (is.map (.widen place)) = (ofList is).map (widen place) := by
  rw [ofList, ofList, List.zipIdx_map, List.map_map, List.map_map]
  rfl

/-- A test of the place does not see the difference. -/
theorem filter_map_widen (q : Nat → Bool) (cs : List Candidate) :
    (cs.map (widen place)).filter (fun c => q c.place)
      = (cs.filter fun c => q c.place).map (widen place) := by
  rw [List.filter_map]
  rfl

/-- **The gain is doubled** where every open row has become two. -/
theorem gain_widen {c : Candidate} (hc : c.implicant.IsCube width) (hw : width < maxVariables)
    (hp : place ≤ width) {need need' : TermSet}
    (hl : Lifts width place need.toList need'.toList) :
    (c.widen place).gain need' = c.gain need + c.gain need := by
  have hcov : ∀ t, t ∈ (c.implicant.widen place).covered ↔
      t < RowIndex.count (width + 1) ∧ narrow width place t ∈ c.implicant.covered := by
    intro t
    simpa only [Implicant.covers, decide_eq_true_eq] using hc.covers_widen hw hp t
  have hlifts : Lifts width place (c.implicant.covered.filter (· ∈ need)).toList
      ((c.implicant.widen place).covered.filter (· ∈ need')).toList := by
    intro t
    simp only [← Ascending.mem_def, Ascending.mem_filter, decide_eq_true_eq, hcov]
    rw [Ascending.mem_def (s := need'), hl t, ← Ascending.mem_def]
    constructor
    · rintro ⟨⟨ht, hcov⟩, -, hneed⟩
      exact ⟨ht, hcov, hneed⟩
    · rintro ⟨ht, hcov, hneed⟩
      exact ⟨⟨ht, hcov⟩, ht, hneed⟩
  have hlt : ∀ t ∈ (c.implicant.covered.filter (· ∈ need)).toList, t < RowIndex.count width := by
    intro t ht
    exact hc.lt_of_covers (decide_eq_true (Ascending.mem_filter.mp ht).1)
  exact hlifts.length_eq hp hlt (Ascending.nodup _) (Ascending.nodup _)

end Candidate

/-- The pick of the widened candidate. -/
def Pick.widen (place : Nat) (p : Pick) : Pick := ⟨p.candidate.widen place, p.gain + p.gain⟩

/-- The widened candidate, for the first row that the term has become. -/
def Essential.widen (width place : Nat) (e : Essential) : Essential :=
  ⟨RowIndex.widen width place false e.term, e.candidate.widen place⟩

namespace Selection

variable {cs : List Candidate} {need need' targets targets' : TermSet}

/-! ## 2. The picks -/

theorem bestOf?_widen (hcs : ∀ c ∈ cs, c.implicant.IsCube width) (hw : width < maxVariables)
    (hp : place ≤ width) (hl : Lifts width place need.toList need'.toList) :
    bestOf? need' (cs.map (.widen place)) = (bestOf? need cs).map (.widen place) := by
  induction cs with
  | nil => rfl
  | cons c cs ih =>
    have hgain := Candidate.gain_widen (hcs c List.mem_cons_self) hw hp hl
    rw [List.map_cons, bestOf?, bestOf?, ih fun d hd => hcs d (List.mem_cons_of_mem c hd), hgain]
    cases bestOf? need cs with
    | none =>
      by_cases hpos : 0 < c.gain need
      · have hpos' : 0 < c.gain need + c.gain need := Nat.add_pos_left hpos _
        simp only [Option.map_none, hpos, hpos', if_true, Option.map_some]
        rfl
      · have hpos' : ¬ 0 < c.gain need + c.gain need := by omega
        simp only [Option.map_none, hpos, hpos', if_false]
    | some p =>
      have hle : (Pick.widen place p).gain ≤ c.gain need + c.gain need ↔ p.gain ≤ c.gain need := by
        simp only [Pick.widen]
        omega
      simp only [Option.map_some, hle]
      split
      · rfl
      · rfl

/-- What stays open are the rows that an open row has become. -/
theorem lifts_remaining {is : List Implicant} (his : ∀ i ∈ is, i.IsCube width)
    (hw : width < maxVariables) (hp : place ≤ width)
    (hl : Lifts width place need.toList need'.toList) :
    Lifts width place (remaining need is).toList
      (remaining need' (is.map (.widen place))).toList := by
  intro t
  rw [← Ascending.mem_def, ← Ascending.mem_def, mem_remaining, mem_remaining, Ascending.mem_def,
    hl t, ← Ascending.mem_def, and_assoc]
  refine and_congr_right fun ht => and_congr_right fun _ => ?_
  rw [List.forall_mem_map]
  refine forall_congr' fun i => forall_congr' fun hi => ?_
  rw [(his i hi).covers_widen_eq hw hp ht]

theorem toList_eq_nil_of_lifts (hp : place ≤ width) (hlt : ∀ t ∈ need, t < RowIndex.count width)
    (hl : Lifts width place need.toList need'.toList) :
    need.toList = [] ↔ need'.toList = [] := by
  rw [List.eq_nil_iff_forall_not_mem, List.eq_nil_iff_forall_not_mem]
  constructor
  · exact fun hnil t ht => hnil _ ((hl t).mp ht).2
  · exact fun hnil t ht => hnil _ (hl.widen_mem (b := false) hp hlt ht)

/-- Without open terms there are no picks. -/
theorem picksOf_of_toList_eq_nil (count : Nat) (h : need.toList = []) :
    picksOf count cs need = [] := by
  cases count with
  | zero => rfl
  | succ count =>
    have hnone : bestOf? need cs = none := by
      refine bestOf?_eq_none_iff.mpr fun c _ => Nat.eq_zero_of_not_pos fun hpos => ?_
      obtain ⟨t, ht, -⟩ := Candidate.gain_pos_iff.mp hpos
      rw [Ascending.mem_def, h] at ht
      cases ht
    rw [picksOf, hnone]

/-- **The picks are the widened picks.**  By induction on the bound of the picks; the bounds
differ, but neither is less than the number of open terms. -/
theorem picksOf_widen {count count' : Nat} (hcs : ∀ c ∈ cs, c.implicant.IsCube width)
    (hw : width < maxVariables) (hp : place ≤ width)
    (hl : Lifts width place need.toList need'.toList)
    (hlt : ∀ t ∈ need, t < RowIndex.count width) (hcount : need.size ≤ count)
    (hcount' : need'.size ≤ count') :
    picksOf count' (cs.map (.widen place)) need' = (picksOf count cs need).map (.widen place) := by
  have hnil : ∀ {s : TermSet}, s.size ≤ 0 → s.toList = [] :=
    fun hs => List.eq_nil_of_length_eq_zero (Nat.le_zero.mp hs)
  induction count generalizing count' cs need need' with
  | zero =>
    have hneed := (toList_eq_nil_of_lifts hp hlt hl).mp (hnil hcount)
    rw [picksOf_of_toList_eq_nil count' hneed]
    rfl
  | succ count ih =>
    cases count' with
    | zero =>
      have hneed := (toList_eq_nil_of_lifts hp hlt hl).mpr (hnil hcount')
      rw [picksOf_of_toList_eq_nil (count + 1) hneed]
      rfl
    | succ count' =>
      rw [picksOf, picksOf, bestOf?_widen hcs hw hp hl]
      cases hbest : bestOf? need cs with
      | none => rfl
      | some p =>
        have hbest' := bestOf?_widen hcs hw hp hl
        rw [hbest, Option.map_some] at hbest'
        obtain ⟨hmem, hgain, hpos⟩ := mem_of_bestOf? hbest
        obtain ⟨-, hgain', hpos'⟩ := mem_of_bestOf? hbest'
        have hsize := size_remaining_lt (Candidate.gain_pos_iff.mp (hgain ▸ hpos))
        have hsize' := size_remaining_lt (Candidate.gain_pos_iff.mp (hgain' ▸ hpos'))
        have hfilter : (cs.map (Candidate.widen place)).filter
              (fun c => c.place ≠ (Pick.widen place p).candidate.place)
            = (cs.filter fun c => c.place ≠ p.candidate.place).map (.widen place) :=
          Candidate.filter_map_widen (· ≠ p.candidate.place) cs
        have hrest : ∀ c ∈ cs.filter (fun c => c.place ≠ p.candidate.place),
            c.implicant.IsCube width := fun c hc => hcs c (List.mem_filter.mp hc).1
        have hopen : Lifts width place (remaining need [p.candidate.implicant]).toList
            (remaining need' [(Pick.widen place p).candidate.implicant]).toList :=
          lifts_remaining (List.forall_mem_singleton.mpr (hcs _ hmem)) hw hp hl
        have hsteps := ih hrest hopen (fun t ht => hlt t (mem_remaining.mp ht).1)
          (Nat.le_of_lt_succ (Nat.lt_of_lt_of_le hsize hcount))
          (Nat.le_of_lt_succ (Nat.lt_of_lt_of_le hsize' hcount'))
        simp only [Option.map_some, List.map_cons, hfilter, hsteps]

/-! ## 3. Essential implicants -/

/-- The only candidate that covers a row is the widened one that covers it without the new bit. -/
theorem sole?_widen (hcs : ∀ c ∈ cs, c.implicant.IsCube width) (hw : width < maxVariables)
    (hp : place ≤ width) {t : Nat} (ht : t < RowIndex.count (width + 1)) :
    sole? (cs.map (.widen place)) t = (sole? cs (narrow width place t)).map (.widen place) := by
  have hfilter : (cs.map (Candidate.widen place)).filter (·.implicant.covers t)
      = (cs.filter (·.implicant.covers (narrow width place t))).map (.widen place) := by
    rw [List.filter_map]
    refine congrArg _ (List.filter_congr fun c hc => ?_)
    exact (hcs c hc).covers_widen_eq hw hp ht
  unfold sole?
  rw [hfilter]
  cases cs.filter (·.implicant.covers (narrow width place t)) with
  | nil => rfl
  | cons c rest =>
    cases rest with
    | nil => rfl
    | cons d rest => rfl

section Widened

variable (hcs : ∀ c ∈ cs, c.implicant.IsCube width) (hw : width < maxVariables)
  (hp : place ≤ width) (hlt : ∀ t ∈ targets, t < RowIndex.count width)
  (hl : Lifts width place targets.toList targets'.toList)

include hcs hw hp hl

theorem exists_sole?_of_widen {t : Nat} {c' : Candidate} (ht : t ∈ targets')
    (hc' : sole? (cs.map (.widen place)) t = some c') :
    narrow width place t ∈ targets ∧
      ∃ c, sole? cs (narrow width place t) = some c ∧ c.widen place = c' := by
  obtain ⟨htlt, hmem⟩ := (hl t).mp ht
  rw [sole?_widen hcs hw hp htlt] at hc'
  exact ⟨hmem, Option.map_eq_some_iff.mp hc'⟩

include hlt

theorem sole?_widen_of_mem {t : Nat} {c : Candidate} (ht : t ∈ targets)
    (hc : sole? cs t = some c) :
    RowIndex.widen width place false t ∈ targets' ∧
      sole? (cs.map (.widen place)) (RowIndex.widen width place false t)
        = some (c.widen place) := by
  refine ⟨hl.widen_mem hp hlt ht, ?_⟩
  rw [sole?_widen hcs hw hp (RowIndex.widen_lt hp), RowIndex.narrow_widen (hlt t ht) hp, hc]
  rfl

theorem widen_mem_essentialsOf {e : Essential} (he : e ∈ essentialsOf cs targets) :
    e.widen width place ∈ essentialsOf (cs.map (.widen place)) targets' := by
  obtain ⟨ht, hc, hfirst⟩ := mem_essentialsOf.mp he
  obtain ⟨hwt, hwc⟩ := sole?_widen_of_mem hcs hw hp hlt hl ht hc
  refine mem_essentialsOf.mpr ⟨hwt, hwc, fun u hu d' hd' hplace => ?_⟩
  obtain ⟨hmem, d, hd, hde⟩ := exists_sole?_of_widen hcs hw hp hl hu hd'
  have hle := hfirst _ hmem d hd ((congrArg Candidate.place hde).trans hplace)
  exact RowIndex.widen_false_le ((hl u).mp hu).1 (hlt _ ht) hp hle

theorem exists_widen_of_mem_essentialsOf {e' : Essential}
    (he' : e' ∈ essentialsOf (cs.map (.widen place)) targets') :
    ∃ e ∈ essentialsOf cs targets, e.widen width place = e' := by
  obtain ⟨ht, hc, hfirst⟩ := mem_essentialsOf.mp he'
  obtain ⟨hmem, c, hsc, hce⟩ := exists_sole?_of_widen hcs hw hp hl ht hc
  -- the first of the two rows is no later, so it is this one
  obtain ⟨hwt, hwc⟩ := sole?_widen_of_mem hcs hw hp hlt hl hmem hsc
  have hle := hfirst _ hwt _ hwc (congrArg Candidate.place hce)
  have hge := RowIndex.widen_false_le ((hl _).mp ht).1 (hlt _ hmem) hp (Nat.le_refl _)
  have heq := Nat.le_antisymm hle hge
  refine ⟨⟨narrow width place e'.term, c⟩, mem_essentialsOf.mpr ⟨hmem, hsc, ?_⟩, ?_⟩
  · intro u hu d hd hplace
    obtain ⟨hwu, hwd⟩ := sole?_widen_of_mem hcs hw hp hlt hl hu hd
    have hsame : (d.widen place).place = e'.candidate.place := by
      rw [← hce]
      exact hplace
    have hle := hfirst _ hwu _ hwd hsame
    refine Nat.le_of_not_lt fun hlt' => ?_
    have := RowIndex.widen_false_lt (hlt u hu) (hlt _ hmem) hp hlt'
    omega
  · cases e'
    simp only [Essential.widen, ← heq, hce]

/-- **The essential implicants are the widened ones, in the same order.** -/
theorem essentialsOf_widen :
    essentialsOf (cs.map (.widen place)) targets'
      = (essentialsOf cs targets).map (.widen width place) := by
  refine eq_of_pairwise_of_mem_iff asymm_term (pairwise_essentialsOf _ _) ?_ fun e' => ?_
  · refine List.pairwise_map.mpr ((pairwise_essentialsOf cs targets).imp_of_mem ?_)
    intro e f he hf hef
    exact RowIndex.widen_false_lt (hlt _ (mem_essentialsOf.mp he).1)
      (hlt _ (mem_essentialsOf.mp hf).1) hp hef
  · rw [List.mem_map]
    constructor
    · exact exists_widen_of_mem_essentialsOf hcs hw hp hlt hl
    · rintro ⟨e, he, rfl⟩
      exact widen_mem_essentialsOf hcs hw hp hlt hl he

end Widened

/-! ## 4. The choice as a whole -/

/-- **The chosen implicants have the widened patterns**, in the same order. -/
theorem patterns_selected_widen {is : List Implicant} (his : ∀ i ∈ is, i.IsCube width)
    (hw : width < maxVariables) (hp : place ≤ width)
    (hlt : ∀ t ∈ targets, t < RowIndex.count width)
    (hl : Lifts width place targets.toList targets'.toList) :
    (choose (is.map (.widen place)) targets').selected.map (·.pattern)
      = (choose is targets).selected.map (·.pattern.widen place) := by
  have hcs : ∀ c ∈ Candidate.ofList is, c.implicant.IsCube width :=
    fun c hc => his _ ((Candidate.placedIn_ofList is).mem hc)
  have hplaces : ∀ es : List Essential, (es.map (Essential.widen width place)).map
      (·.candidate.place) = es.map (·.candidate.place) := by
    intro es
    rw [List.map_map]
    rfl
  have himplicants : ∀ es : List Essential, (es.map (Essential.widen width place)).map
      (·.candidate.implicant) = (es.map (·.candidate.implicant)).map (.widen place) := by
    intro es
    rw [List.map_map, List.map_map]
    rfl
  have hothers : ∀ places : List Nat,
      ((Candidate.ofList is).map (Candidate.widen place)).filter (fun c => c.place ∉ places)
        = ((Candidate.ofList is).filter fun c => c.place ∉ places).map (.widen place) :=
    fun places => Candidate.filter_map_widen (· ∉ places) _
  have hess : ∀ i ∈ (essentialsOf (Candidate.ofList is) targets).map (·.candidate.implicant),
      i.IsCube width := by
    intro i hi
    obtain ⟨e, he, rfl⟩ := List.mem_map.mp hi
    exact hcs _ (covers_of_sole? (mem_essentialsOf.mp he).2.1).1
  have hrest : ∀ c ∈ (Candidate.ofList is).filter (fun c => c.place ∉
      (essentialsOf (Candidate.ofList is) targets).map (·.candidate.place)),
      c.implicant.IsCube width := fun c hc => hcs c (List.mem_filter.mp hc).1
  have hpicks := picksOf_widen hrest hw hp (lifts_remaining hess hw hp hl)
    (fun t ht => hlt t (mem_remaining.mp ht).1) (Nat.le_refl _) (Nat.le_refl _)
  simp only [selected, choose, Candidate.ofList_map_widen, essentialsOf_widen hcs hw hp hlt hl,
    hplaces, himplicants, hothers, hpicks]
  simp only [List.map_append, List.map_map]
  rfl

end Selection

/-! ## 5. The text of a form -/

variable {form : NormalForm} {name : Char}

/-- Chosen implicants with widened patterns are written as before. -/
theorem Cover.expressionOf_widen {vs us : Variables} {is js : List Implicant}
    (hpatterns : js.map (·.pattern) = is.map (·.pattern.widen place))
    (hvs : ∀ i ∈ is, i.pattern.width = vs.size) (hsize : vs.size < maxVariables)
    (hp : place ≤ vs.size) (hus : us.toList = vs.toList.insertIdx place name) :
    expressionOf js us form = expressionOf is vs form := by
  by_cases hnil : is = []
  · subst hnil
    rw [List.map_eq_nil_iff.mp hpatterns]
    rfl
  · have hnil' : js ≠ [] := by
      rintro rfl
      exact hnil (List.map_eq_nil_iff.mp hpatterns.symm)
    have husize : us.size = vs.size + 1 := by
      rw [Ascending.size, hus]
      exact List.length_insertIdx_of_le_length hp name
    have hjs : ∀ j ∈ js, j.pattern.width = us.size := by
      intro j hj
      have hmem : j.pattern ∈ is.map (·.pattern.widen place) :=
        hpatterns ▸ List.mem_map.mpr ⟨j, hj, rfl⟩
      obtain ⟨i, hi, e⟩ := List.mem_map.mp hmem
      have hiw := hvs i hi
      rw [← e, Pattern.width_widen (hiw ▸ hsize) (hiw ▸ hp), hiw, husize]
    have htexts : js.map (fun j => Literal.termText form (j.pattern.literals us form))
        = is.map fun i => Literal.termText form (i.pattern.literals vs form) := by
      have hmap := congrArg (List.map fun p => Literal.termText form (Pattern.literals p us form))
        hpatterns
      rw [List.map_map, List.map_map] at hmap
      refine hmap.trans (List.map_congr_left fun i hi => ?_)
      have hiw := hvs i hi
      exact congrArg _ (Pattern.literals_widen form (hiw ▸ hsize) hiw (hiw ▸ hp) hus)
    rw [expressionOf_eq_ok hnil' hjs, expressionOf_eq_ok hnil hvs, htexts]

/-- The terms over one more variable are the rows that the terms have become. -/
theorem TruthTable.lifts_terms {t u : TruthTable} (hp : place ≤ t.vars.size)
    (hvars : u.vars.toList = t.vars.toList.insertIdx place name) (hvalue : u.value = t.value) :
    Lifts t.vars.size place (t.terms form) (u.terms form) := by
  have hrow : ∀ v : Char → Bool, u.vars.toList.map v
      = (t.vars.toList.map v).insertIdx place (v name) := by
    intro v
    rw [hvars, List.map_insertIdx]
  have hcount : u.vars.rowCount = RowIndex.count (t.vars.size + 1) := by
    rw [Variables.rowCount, Ascending.size, hvars, List.length_insertIdx_of_le_length hp,
      Ascending.size]
  have hmem : ∀ v : Char → Bool, RowIndex.ofBits (u.vars.toList.map v) ∈ u.terms form ↔
      narrow t.vars.size place (RowIndex.ofBits (u.vars.toList.map v)) ∈ t.terms form := by
    intro v
    have hlen : (t.vars.toList.map v).length = t.vars.size := List.length_map v
    rw [mem_terms_iff, hvalue, ← mem_terms_iff, hrow, RowIndex.narrow_ofBits hlen hp]
  intro i
  constructor
  · intro hi
    have hlt := lt_of_mem_terms hi
    obtain ⟨v, rfl⟩ := exists_row u.vars hlt
    exact ⟨hcount ▸ hlt, (hmem v).mp hi⟩
  · rintro ⟨hlt, hi⟩
    obtain ⟨v, rfl⟩ := exists_row u.vars (hcount ▸ hlt)
    exact (hmem v).mpr hi

/-- **The text of a form does not depend on a variable without influence.** -/
theorem Minimization.expression_widen {t u : TruthTable} {m n : Minimization}
    (h : ofTable t form = .ok m) (k : ofTable u form = .ok n) (hp : place ≤ t.vars.size)
    (hvars : u.vars.toList = t.vars.toList.insertIdx place name) (hvalue : u.value = t.value) :
    n.cover.expression = m.cover.expression := by
  by_cases hconst : ∃ b, ∀ v, t.value v = b
  · obtain ⟨b, hb⟩ := hconst
    rw [expression_of_constant h hb, expression_of_constant k (hvalue ▸ hb)]
  · have hsize : u.vars.size = t.vars.size + 1 := by
      rw [Ascending.size, hvars]
      exact List.length_insertIdx_of_le_length hp name
    have hmax : t.vars.size < maxVariables := by
      have := u.size_le
      omega
    have hlt : ∀ i ∈ t.terms form, i < RowIndex.count t.vars.size :=
      fun i hi => TruthTable.lt_of_mem_terms hi
    have hlifts : Lifts t.vars.size place (t.terms form) (u.terms form) :=
      TruthTable.lifts_terms hp hvars hvalue
    have hprimes : n.primes = m.primes.map (.widen place) := by
      have hrun := (of_ofTable k).1
      rw [hsize] at hrun
      exact PrimeSearch.primes_widen (of_ofTable h).1 hrun (t.pairwise_terms form)
        (u.pairwise_terms form) hmax hp hlt hlifts
    have hcubes : ∀ i ∈ m.primes, i.IsCube t.vars.size := fun i hi =>
      ⟨(arePrimes h).full i hi, ((arePrimes h).of_mem hi).1⟩
    have hpatterns : (choice u form n).selected.map (·.pattern)
        = (choice t form m).selected.map (·.pattern.widen place) := by
      rw [choice, hprimes]
      refine Selection.patterns_selected_widen hcubes hmax hp
        (fun i hi => hlt i (Ascending.mem_ofList.mp hi)) fun i => ?_
      rw [← Ascending.mem_def, ← Ascending.mem_def, Ascending.mem_ofList, Ascending.mem_ofList]
      exact hlifts i
    have htext := expressionOf_selected h hconst
    have hwidths : ∀ i ∈ (choice t form m).selected, i.pattern.width = t.vars.size :=
      fun i hi => ((arePrimes h).of_mem_selected hi).1
    rw [← Cover.expressionOf_widen hpatterns hwidths hmax hp hvars,
      expressionOf_selected k (hvalue ▸ hconst)] at htext
    exact Except.ok.inj htext

end TwoLevel
