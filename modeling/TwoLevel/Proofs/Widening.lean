/-
# One more variable

A variable without influence takes a place among the others.  Each row becomes two, each pattern
has one more free position, and the prime implicants of the rows are those from before, in the
order from before.

* `RowIndex.widen_false_le`: of the rows that become one without the new bit, the one where it is
  false comes first;
* `Pattern.covers_widen`: the widened pattern covers a row as the pattern covers it without the
  new bit;
* `Pattern.precedes_widen`: the order in which patterns are found is kept;
* `PrimeSearch.primes_widen`: the prime implicants are the widened ones.
-/
import Mathlib.Data.List.InsertIdx
import TwoLevel.Proofs.DiscoveryOrder
import TwoLevel.Proofs.Rendering

namespace TwoLevel

/-- A list with an element at a place is another one with the element inserted there. -/
theorem exists_eq_insertIdx {α : Type} {xs : List α} {place n : Nat} (hl : xs.length = n + 1)
    (hp : place ≤ n) : ∃ (x : α) (ys : List α), xs = ys.insertIdx place x ∧ ys.length = n := by
  have hlt : place < xs.length := by omega
  refine ⟨xs[place], xs.eraseIdx place, (List.insertIdx_eraseIdx_getElem hlt).symm, ?_⟩
  rw [List.length_eraseIdx_of_lt hlt, hl, Nat.add_sub_cancel]

/-! ## 1. Rows -/

namespace RowIndex

/-- The index of a row without the bit at a place; `width` bits are left. -/
def narrow (width place index : Nat) : Nat :=
  ofBits ((bits (width + 1) index).eraseIdx place)

/-- The index of a row of `width` bits with one more bit at a place. -/
def widen (width place : Nat) (b : Bool) (index : Nat) : Nat :=
  ofBits ((bits width index).insertIdx place b)

variable {width place : Nat} {bs cs : List Bool} {b c : Bool} {s t : Nat}

theorem narrow_ofBits (hl : bs.length = width) (hp : place ≤ width) :
    narrow width place (ofBits (bs.insertIdx place b)) = ofBits bs := by
  have hlen : (bs.insertIdx place b).length = width + 1 := by
    rw [List.length_insertIdx_of_le_length (hl.symm ▸ hp), hl]
  rw [narrow, ← hlen, bits_ofBits, List.eraseIdx_insertIdx_self]

theorem widen_ofBits (hl : bs.length = width) :
    widen width place b (ofBits bs) = ofBits (bs.insertIdx place b) := by
  rw [widen, ← hl, bits_ofBits]

/-- The rows of a width are the lists of so many bits. -/
theorem exists_ofBits (h : t < count width) : ∃ bs : List Bool, bs.length = width ∧ ofBits bs = t :=
  ⟨bits width t, length_bits width t, by rw [ofBits_bits, Nat.mod_eq_of_lt h]⟩

theorem exists_ofBits_insertIdx (h : t < count (width + 1)) (hp : place ≤ width) :
    ∃ (b : Bool) (bs : List Bool), bs.length = width ∧ ofBits (bs.insertIdx place b) = t := by
  obtain ⟨cs, hl, rfl⟩ := exists_ofBits h
  obtain ⟨b, bs, rfl, hbs⟩ := exists_eq_insertIdx hl hp
  exact ⟨b, bs, hbs, rfl⟩

theorem widen_lt (hp : place ≤ width) : widen width place b t < count (width + 1) := by
  have hlen : ((bits width t).insertIdx place b).length = width + 1 := by
    rw [List.length_insertIdx_of_le_length (by simpa using hp), length_bits]
  have hlt := ofBits_lt ((bits width t).insertIdx place b)
  rwa [hlen] at hlt

theorem narrow_widen (h : t < count width) (hp : place ≤ width) :
    narrow width place (widen width place b t) = t := by
  obtain ⟨bs, hl, rfl⟩ := exists_ofBits h
  rw [widen_ofBits hl, narrow_ofBits hl hp]

theorem exists_eq_widen (h : t < count (width + 1)) (hp : place ≤ width) :
    ∃ b, t = widen width place b (narrow width place t) := by
  obtain ⟨b, bs, hl, rfl⟩ := exists_ofBits_insertIdx h hp
  exact ⟨b, by rw [narrow_ofBits hl hp, widen_ofBits hl]⟩

theorem ofBits_inj (hl : bs.length = cs.length) (h : ofBits bs = ofBits cs) : bs = cs := by
  have h' := congrArg (bits bs.length) h
  rwa [bits_ofBits, hl, bits_ofBits] at h'

theorem widen_ne (hp : place ≤ width) (h : b ≠ c) :
    widen width place b s ≠ widen width place c t := by
  intro e
  have hlen : ∀ (b : Bool) (t : Nat), ((bits width t).insertIdx place b).length = width + 1 := by
    intro b t
    rw [List.length_insertIdx_of_le_length (by simpa using hp), length_bits]
  have hbits := congrArg (·[place]?) (ofBits_inj ((hlen b s).trans (hlen c t).symm) e)
  simp only [List.getElem?_insertIdx_self, length_bits, hp, if_true, Option.some.injEq] at hbits
  exact h hbits

/-- A bit that is false takes no more than any other bit. -/
theorem ofBits_insertIdx_le (hl : bs.length = cs.length) (hp : place ≤ bs.length)
    (h : ofBits bs ≤ ofBits cs) :
    ofBits (bs.insertIdx place false) ≤ ofBits (cs.insertIdx place b) := by
  induction place generalizing bs cs with
  | zero =>
    simp only [List.insertIdx_zero, ofBits, Bool.toNat_false]
    omega
  | succ place ih =>
    cases bs with
    | nil => simp at hp
    | cons x bs =>
      cases cs with
      | nil => cases hl
      | cons y cs =>
        have hlen : bs.length = cs.length := Nat.succ.inj hl
        have hplace : place ≤ bs.length := Nat.le_of_succ_le_succ hp
        have hbs := ofBits_lt bs
        have hcs := ofBits_lt cs
        have hins := ofBits_lt (bs.insertIdx place false)
        have hbsi := List.length_insertIdx_of_le_length hplace false
        have hcsi := List.length_insertIdx_of_le_length (hlen ▸ hplace) b
        rw [hbsi] at hins
        simp only [List.insertIdx_succ_cons, ofBits, hbsi, hcsi, ← hlen] at h hcs ⊢
        cases x <;> cases y <;> simp only [Bool.toNat_false, Bool.toNat_true] at h ⊢
        · have := ih hlen hplace (by omega)
          omega
        · omega
        · omega
        · have := ih hlen hplace (by omega)
          omega

/-- **The row where the new bit is false comes first.** -/
theorem widen_false_le (ht : t < count (width + 1)) (hs : s < count width) (hp : place ≤ width)
    (h : s ≤ narrow width place t) : widen width place false s ≤ t := by
  obtain ⟨b, cs, hcs, rfl⟩ := exists_ofBits_insertIdx ht hp
  obtain ⟨bs, hbs, rfl⟩ := exists_ofBits hs
  rw [narrow_ofBits hcs hp] at h
  rw [widen_ofBits hbs]
  exact ofBits_insertIdx_le (hbs.trans hcs.symm) (hbs.symm ▸ hp) h

/-- Rows stay in order when the same bit is put in. -/
theorem widen_false_lt (hs : s < count width) (ht : t < count width) (hp : place ≤ width)
    (h : s < t) : widen width place false s < widen width place false t := by
  have hnarrow := narrow_widen (b := false) ht hp
  refine Nat.lt_of_le_of_ne (widen_false_le (widen_lt hp) hs hp ?_) fun e => ?_
  · rw [hnarrow]
    exact Nat.le_of_lt h
  · rw [← e, narrow_widen hs hp] at hnarrow
    exact Nat.lt_irrefl t (hnarrow ▸ h)

/-- The second list has the rows that are in the first without the bit at a place. -/
def Lifts (width place : Nat) (xs ys : List Nat) : Prop :=
  ∀ t, t ∈ ys ↔ t < count (width + 1) ∧ narrow width place t ∈ xs

variable {xs ys : List Nat}

theorem Lifts.widen_mem (h : Lifts width place xs ys) (hp : place ≤ width)
    (hlt : ∀ s ∈ xs, s < count width) (hs : s ∈ xs) : widen width place b s ∈ ys :=
  (h _).mpr ⟨widen_lt hp, (narrow_widen (hlt s hs) hp).symm ▸ hs⟩

theorem nodup_map_widen (hp : place ≤ width) (hlt : ∀ s ∈ xs, s < count width)
    (hx : xs.Nodup) : (xs.map (widen width place b)).Nodup := by
  refine List.pairwise_map.mpr (hx.imp_of_mem fun {s t} hs ht hne e => hne ?_)
  rw [← narrow_widen (b := b) (hlt s hs) hp, e, narrow_widen (hlt t ht) hp]

/-- **There are twice as many rows** with one more bit. -/
theorem Lifts.length_eq (h : Lifts width place xs ys) (hp : place ≤ width)
    (hlt : ∀ s ∈ xs, s < count width) (hx : xs.Nodup) (hy : ys.Nodup) :
    ys.length = xs.length + xs.length := by
  have hboth : (xs.map (widen width place false) ++ xs.map (widen width place true)).Nodup := by
    refine List.nodup_append.mpr
      ⟨nodup_map_widen hp hlt hx, nodup_map_widen hp hlt hx, fun s hs t ht => ?_⟩
    obtain ⟨s, -, rfl⟩ := List.mem_map.mp hs
    obtain ⟨t, -, rfl⟩ := List.mem_map.mp ht
    exact widen_ne hp Bool.noConfusion
  have hmem : ∀ t, t ∈ ys ↔
      t ∈ xs.map (widen width place false) ++ xs.map (widen width place true) := by
    intro t
    rw [List.mem_append]
    constructor
    · intro ht
      obtain ⟨htlt, hnarrow⟩ := (h t).mp ht
      obtain ⟨b, hb⟩ := exists_eq_widen htlt hp
      cases b with
      | false => exact .inl (List.mem_map.mpr ⟨_, hnarrow, hb.symm⟩)
      | true => exact .inr (List.mem_map.mpr ⟨_, hnarrow, hb.symm⟩)
    · rintro (ht | ht)
      · obtain ⟨s, hs, rfl⟩ := List.mem_map.mp ht
        exact h.widen_mem hp hlt hs
      · obtain ⟨s, hs, rfl⟩ := List.mem_map.mp ht
        exact h.widen_mem hp hlt hs
  have hperm := (List.perm_ext_iff_of_nodup hy hboth).mpr hmem
  rw [hperm.length_eq, List.length_append, List.length_map, List.length_map]

end RowIndex

/-! ## 2. Patterns -/

open RowIndex (narrow widen Lifts)

theorem Slot.fits_insertIdx {ss : List Slot} {bs : List Bool} {s : Slot} {b : Bool} {place : Nat}
    (hl : bs.length = ss.length) (hp : place ≤ ss.length) :
    fits (ss.insertIdx place s) (bs.insertIdx place b) = (s.admits b && fits ss bs) := by
  induction place generalizing ss bs with
  | zero => rfl
  | succ place ih =>
    cases ss with
    | nil => simp at hp
    | cons u ss =>
      cases bs with
      | nil => cases hl
      | cons c bs =>
        rw [List.insertIdx_succ_cons, List.insertIdx_succ_cons, fits, fits,
          ih (Nat.succ.inj hl) (Nat.le_of_succ_le_succ hp), Bool.and_left_comm]

namespace Pattern

/-- The pattern with one more free position at a place.  A pattern that has no room for it stays
as it is. -/
def widen (place : Nat) (p : Pattern) : Pattern :=
  if h : p.width < maxVariables then
    ⟨p.slots.insertIdx place .free, Nat.le_trans List.length_insertIdx_le_succ h⟩
  else p

variable {width place : Nat} {p q : Pattern}

theorem slots_widen (hw : p.width < maxVariables) :
    (p.widen place).slots = p.slots.insertIdx place .free := by
  rw [widen, dif_pos hw]

theorem width_widen (hw : p.width < maxVariables) (hp : place ≤ p.width) :
    (p.widen place).width = p.width + 1 := by
  rw [Pattern.width, slots_widen hw]
  exact List.length_insertIdx_of_le_length hp _

theorem freeCount_widen (hw : p.width < maxVariables) (hp : place ≤ p.width) :
    (p.widen place).freeCount = p.freeCount + 1 := by
  rw [freeCount, slots_widen hw, (List.perm_insertIdx .free p.slots hp).count_eq,
    List.count_cons_self, freeCount]

/-- **The widened pattern covers a row as the pattern covers it without the new bit.** -/
theorem covers_widen (hw : p.width < maxVariables) (hp : place ≤ p.width) (t : Nat) :
    (p.widen place).covers t = true ↔
      t < RowIndex.count (p.width + 1) ∧ p.covers (narrow p.width place t) = true := by
  have hcovers : ∀ (b : Bool) (bs : List Bool), bs.length = p.width →
      ((p.widen place).covers (RowIndex.ofBits (bs.insertIdx place b)) = true ↔
        p.covers (RowIndex.ofBits bs) = true) := by
    intro b bs hl
    have hlen : (bs.insertIdx place b).length = (p.widen place).width := by
      rw [List.length_insertIdx_of_le_length (hl.symm ▸ hp), width_widen hw hp, hl]
    rw [covers_ofBits hlen, covers_ofBits hl, slots_widen hw, Slot.fits_insertIdx hl hp,
      Slot.admits, Bool.true_and]
  constructor
  · intro ht
    have hlt : t < RowIndex.count (p.width + 1) := width_widen hw hp ▸ lt_of_covers ht
    obtain ⟨b, bs, hl, rfl⟩ := RowIndex.exists_ofBits_insertIdx hlt hp
    refine ⟨hlt, ?_⟩
    rw [RowIndex.narrow_ofBits hl hp]
    exact (hcovers b bs hl).mp ht
  · rintro ⟨hlt, ht⟩
    obtain ⟨b, bs, hl, rfl⟩ := RowIndex.exists_ofBits_insertIdx hlt hp
    rw [RowIndex.narrow_ofBits hl hp] at ht
    exact (hcovers b bs hl).mpr ht

theorem covers_widen_widen {b : Bool} {t : Nat} (hw : p.width < maxVariables)
    (hp : place ≤ p.width) (ht : t < RowIndex.count p.width) :
    (p.widen place).covers (RowIndex.widen p.width place b t) = true ↔ p.covers t = true := by
  rw [covers_widen hw hp, RowIndex.narrow_widen ht hp]
  exact and_iff_right (RowIndex.widen_lt hp)

theorem inside_widen (hw : p.width < maxVariables) (hp : place ≤ p.width)
    (hpq : p.width = q.width) : (p.widen place).Inside (q.widen place) ↔ p.Inside q := by
  constructor
  · intro h t ht
    have hlt := lt_of_covers ht
    have hq := h _ ((covers_widen_widen (b := false) hw hp hlt).mpr ht)
    rw [hpq] at hq hlt hw hp
    exact (covers_widen_widen hw hp hlt).mp hq
  · intro h t ht
    obtain ⟨hlt, ht⟩ := (covers_widen hw hp t).mp ht
    rw [hpq] at hw hp hlt ht
    exact (covers_widen hw hp t).mpr ⟨hlt, h _ ht⟩

theorem widen_injective (hw : p.width < maxVariables) (hpq : p.width = q.width)
    (h : p.widen place = q.widen place) : p = q := by
  have hslots := congrArg (fun r => r.slots.eraseIdx place) h
  simp only [slots_widen hw, slots_widen (hpq ▸ hw), List.eraseIdx_insertIdx_self] at hslots
  exact ext_slots hslots

/-- **The order in which patterns are found is kept.** -/
theorem precedes_widen (hw : p.width < maxVariables) (hp : place ≤ p.width)
    (hpq : p.width = q.width) (h : p.Precedes q) : (p.widen place).Precedes (q.widen place) := by
  obtain ⟨t, hpt, hqt, hbelow⟩ := h
  have hlt := lt_of_covers hpt
  refine ⟨RowIndex.widen p.width place false t, (covers_widen_widen hw hp hlt).mpr hpt, ?_,
    fun s hs => ?_⟩
  · rw [hpq] at hw hp hlt ⊢
    refine Bool.eq_false_iff.mpr fun hq => ?_
    rw [(covers_widen_widen hw hp hlt).mp hq] at hqt
    cases hqt
  · -- a row before this one comes before it without the new bit
    rw [Bool.eq_iff_iff, covers_widen hw hp, covers_widen (hpq ▸ hw) (hpq ▸ hp), ← hpq]
    refine and_congr_right fun hslt => ?_
    have hnarrow : narrow p.width place s < t := by
      refine Nat.lt_of_not_le fun hle => ?_
      exact Nat.not_le_of_lt hs (RowIndex.widen_false_le hslt hlt hp hle)
    rw [hbelow _ hnarrow]

theorem foundBefore_widen (hw : p.width < maxVariables) (hp : place ≤ p.width)
    (hpq : p.width = q.width) (h : p.FoundBefore q) :
    (p.widen place).FoundBefore (q.widen place) := by
  rw [FoundBefore, freeCount_widen hw hp, freeCount_widen (hpq ▸ hw) (hpq ▸ hp)]
  rcases h with h | ⟨e, h⟩
  · exact .inl (Nat.succ_lt_succ h)
  · exact .inr ⟨congrArg (· + 1) e, precedes_widen hw hp hpq h⟩

/-- A free position has no literal, so the literals stay the same. -/
theorem literals_widen {vs us : Variables} {name : Char} (form : NormalForm)
    (hw : p.width < maxVariables) (hvs : p.width = vs.size) (hp : place ≤ p.width)
    (hus : us.toList = vs.toList.insertIdx place name) :
    (p.widen place).literals us form = p.literals vs form := by
  obtain ⟨literal?, hliterals, -, hfree⟩ := exists_literals_eq form
  have hlists : ∀ (place : Nat) (ss : List Slot) (names : List Char),
      ss.length = names.length → place ≤ ss.length →
      ((ss.insertIdx place .free).zip (names.insertIdx place name)).filterMap literal?
        = (ss.zip names).filterMap literal? := by
    intro place
    induction place with
    | zero =>
      intro ss names _ _
      rw [List.insertIdx_zero, List.insertIdx_zero, List.zip_cons_cons, List.filterMap_cons, hfree]
    | succ place ih =>
      intro ss names hl hp
      cases ss with
      | nil => simp at hp
      | cons s ss =>
        cases names with
        | nil => cases hl
        | cons c names =>
          have hrest := ih ss names (Nat.succ.inj hl) (Nat.le_of_succ_le_succ hp)
          simp only [List.insertIdx_succ_cons, List.zip_cons_cons, List.filterMap_cons, hrest]
  rw [hliterals, hliterals, slots_widen hw, hus]
  exact hlists place p.slots vs.toList hvs hp

/-! ## 3. Prime implicants -/

section Primes

variable {terms terms' : List Nat}

theorem isImplicant_widen (hpw : p.width = width) (hw : width < maxVariables)
    (hp : place ≤ width) (hlt : ∀ t ∈ terms, t < RowIndex.count width)
    (hl : Lifts width place terms terms') :
    (p.widen place).IsImplicant terms' ↔ p.IsImplicant terms := by
  subst hpw
  constructor
  · intro h t ht
    have htlt := lt_of_covers ht
    have hmem := h _ ((covers_widen_widen (b := false) hw hp htlt).mpr ht)
    exact RowIndex.narrow_widen htlt hp ▸ ((hl _).mp hmem).2
  · intro h t ht
    obtain ⟨htlt, ht⟩ := (covers_widen hw hp t).mp ht
    exact (hl t).mpr ⟨htlt, h _ ht⟩

/-- **An implicant lies inside a widened one**, since the new bit has no influence. -/
theorem exists_inside_widen {q : Pattern} (hqw : q.width = width + 1) (hp : place ≤ width)
    (hl : Lifts width place terms terms') (hq : q.IsImplicant terms') :
    ∃ p : Pattern, p.width = width ∧ p.IsImplicant terms ∧ q.Inside (p.widen place) := by
  obtain ⟨s, ss, hs, hss⟩ := exists_eq_insertIdx hqw hp
  have hmax : width + 1 ≤ maxVariables := hqw ▸ q.length_le
  refine ⟨⟨ss, hss ▸ Nat.le_of_succ_le hmax⟩, hss, fun t ht => ?_, fun t ht => ?_⟩
  · -- the new bit is given a value that the position admits
    obtain ⟨bs, hbs, rfl⟩ := covers_iff.mp ht
    have hlen : bs.length = ss.length := Slot.length_of_fits hbs
    obtain ⟨b, hb⟩ := s.exists_admits
    have hfits : Slot.fits q.slots (bs.insertIdx place b) = true := by
      rw [hs, Slot.fits_insertIdx hlen (hss.symm ▸ hp), hb, Bool.true_and]
      exact hbs
    have hmem := ((hl _).mp (hq _ (covers_iff.mpr ⟨_, hfits, rfl⟩))).2
    rwa [RowIndex.narrow_ofBits (hlen.trans hss) hp] at hmem
  · obtain ⟨cs, hcs, rfl⟩ := covers_iff.mp ht
    obtain ⟨b, bs, rfl, hbs⟩ := exists_eq_insertIdx ((Slot.length_of_fits hcs).trans hqw) hp
    rw [hs, Slot.fits_insertIdx (hbs.trans hss.symm) (hss.symm ▸ hp), Bool.and_eq_true] at hcs
    have hlen : (bs.insertIdx place b).length = width + 1 := by
      rw [List.length_insertIdx_of_le_length (hbs.symm ▸ hp), hbs]
    have hslots : Pattern.width ⟨ss, hss ▸ Nat.le_of_succ_le hmax⟩ = width := hss
    rw [covers_widen (hslots.symm ▸ hmax) (hslots.symm ▸ hp), hslots,
      RowIndex.narrow_ofBits hbs hp]
    exact ⟨hlen ▸ RowIndex.ofBits_lt _, covers_iff.mpr ⟨bs, hcs.2, rfl⟩⟩

/-- **The prime implicants of the wider rows are the widened prime implicants.** -/
theorem isPrime_widen (hpw : p.width = width) (hw : width < maxVariables) (hp : place ≤ width)
    (hlt : ∀ t ∈ terms, t < RowIndex.count width) (hl : Lifts width place terms terms') :
    (p.widen place).IsPrime terms' ↔ p.IsPrime terms := by
  have himp := isImplicant_widen hpw hw hp hlt hl
  constructor
  · rintro ⟨hpi, hmax⟩
    refine ⟨himp.mp hpi, fun q hpq hqp hq => ?_⟩
    obtain ⟨u, huw, hu⟩ := exists_of_width (Nat.le_of_lt hw) fun t ht => hlt t (hq t ht)
    have hui : u.IsImplicant terms := fun t ht => hq t ((hu t).mp ht)
    have hpu : p.width = u.width := hpw.trans huw.symm
    refine hmax (u.widen place) ?_ ?_ ((isImplicant_widen huw hw hp hlt hl).mpr hui)
    · exact (inside_widen (hpw ▸ hw) (hpw ▸ hp) hpu).mpr fun t ht => (hu t).mpr (hpq t ht)
    · rw [inside_widen (huw ▸ hw) (huw ▸ hp) hpu.symm]
      exact fun hup => hqp fun t ht => hup t ((hu t).mpr ht)
  · rintro ⟨hpi, hmax⟩
    refine ⟨himp.mpr hpi, fun q hpq hqp hq => ?_⟩
    obtain ⟨v, hvw, hv⟩ := exists_of_width hw fun t ht => ((hl t).mp (hq t ht)).1
    have hvi : v.IsImplicant terms' := fun t ht => hq t ((hv t).mp ht)
    obtain ⟨u, huw, hui, hvu⟩ := exists_inside_widen hvw hp hl hvi
    have hpu : p.width = u.width := hpw.trans huw.symm
    refine hmax u ?_ ?_ hui
    · exact (inside_widen (hpw ▸ hw) (hpw ▸ hp) hpu).mp
        fun t ht => hvu t ((hv t).mpr (hpq t ht))
    · intro hup
      refine hqp fun t ht => ?_
      exact (inside_widen (huw ▸ hw) (huw ▸ hp) hpu.symm).mpr hup t (hvu t ((hv t).mpr ht))

/-- A prime implicant of the wider rows is a widened one. -/
theorem exists_eq_widen {q : Pattern} (hqw : q.width = width + 1) (hw : width < maxVariables)
    (hp : place ≤ width) (hlt : ∀ t ∈ terms, t < RowIndex.count width)
    (hl : Lifts width place terms terms') (hq : q.IsPrime terms') :
    ∃ p : Pattern, p.width = width ∧ q = p.widen place := by
  obtain ⟨p, hpw, hpi, hqp⟩ := exists_inside_widen hqw hp hl hq.1
  have hwidth : q.width = (p.widen place).width := by
    rw [width_widen (hpw ▸ hw) (hpw ▸ hp), hqw, hpw]
  have hpq : (p.widen place).Inside q := Classical.byContradiction fun hnot =>
    hq.2 _ hqp hnot ((isImplicant_widen hpw hw hp hlt hl).mpr hpi)
  exact ⟨p, hpw, eq_of_inside hwidth hqp (freeCount_le_of_inside hwidth.symm hpq)⟩

end Primes
end Pattern

/-- The implicant of all rows of the widened pattern. -/
def Implicant.widen (place : Nat) (i : Implicant) : Implicant :=
  .ofPattern (i.pattern.widen place)

section Lists

variable {terms terms' : List Nat} {width place : Nat}

theorem ArePrimes.widen {is : List Implicant} (h : ArePrimes terms width 0 is)
    (hw : width < maxVariables) (hp : place ≤ width)
    (hlt : ∀ t ∈ terms, t < RowIndex.count width) (hl : Lifts width place terms terms') :
    ArePrimes terms' (width + 1) 0 (is.map (.widen place)) := by
  have hwidth : ∀ p ∈ is.map (·.pattern), p.width = width := fun p hpm => ((h.mem p).mp hpm).1
  have hpatterns : (is.map (Implicant.widen place)).map (·.pattern)
      = (is.map (·.pattern)).map (Pattern.widen place) := by
    rw [List.map_map, List.map_map]
    rfl
  constructor
  · intro i hi
    obtain ⟨j, -, rfl⟩ := List.mem_map.mp hi
    rfl
  · rw [hpatterns]
    refine List.pairwise_map.mpr (h.nodup.imp_of_mem fun {p q} hpm hqm hne e => hne ?_)
    have hpw := hwidth p hpm
    exact Pattern.widen_injective (hpw ▸ hw) (hpw.trans (hwidth q hqm).symm) e
  · intro q
    rw [hpatterns, List.mem_map]
    constructor
    · rintro ⟨p, hpm, rfl⟩
      obtain ⟨hpw, -, hprime⟩ := (h.mem p).mp hpm
      refine ⟨?_, Nat.zero_le _, (Pattern.isPrime_widen hpw hw hp hlt hl).mpr hprime⟩
      rw [Pattern.width_widen (hpw ▸ hw) (hpw ▸ hp), hpw]
    · rintro ⟨hqw, -, hq⟩
      obtain ⟨p, hpw, rfl⟩ := Pattern.exists_eq_widen hqw hw hp hlt hl hq
      have hprime := (Pattern.isPrime_widen hpw hw hp hlt hl).mp hq
      exact ⟨p, (h.mem p).mpr ⟨hpw, Nat.zero_le _, hprime⟩, rfl⟩

/-- **The search finds the widened prime implicants**, in the order from before. -/
theorem PrimeSearch.primes_widen {s s' : PrimeSearch} (h : run terms width = .ok s)
    (h' : run terms' (width + 1) = .ok s') (hterms : terms.Pairwise (· < ·))
    (hterms' : terms'.Pairwise (· < ·)) (hw : width < maxVariables) (hp : place ≤ width)
    (hlt : ∀ t ∈ terms, t < RowIndex.count width) (hl : Lifts width place terms terms') :
    s'.primes = s.primes.map (.widen place) := by
  have hprimes := arePrimes_of_run h
  have hord := pairwise_primes h hterms
  refine (arePrimes_of_run h').eq_of_pairwise (hprimes.widen hw hp hlt hl)
    (pairwise_primes h' hterms') ?_
  have hmap : (s.primes.map (Implicant.widen place)).map (·.pattern)
      = (s.primes.map (·.pattern)).map (Pattern.widen place) := by
    rw [List.map_map, List.map_map]
    rfl
  rw [hmap]
  refine List.pairwise_map.mpr (hord.imp_of_mem fun {p q} hpm hqm hpq => ?_)
  have hpw := ((hprimes.mem p).mp hpm).1
  have hqw := ((hprimes.mem q).mp hqm).1
  exact Pattern.foundBefore_widen (hpw ▸ hw) (hpw ▸ hp) (hpw.trans hqw.symm) hpq

end Lists
end TwoLevel
