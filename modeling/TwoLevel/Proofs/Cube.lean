/-
# Patterns as cubes

A pattern of some width is a cube: its rows are the lists of bits that agree with its fixed
slots.  Everything that the search and the choice of implicants need to know about patterns is
a fact about these sets of rows, and it is proved here once, on lists of slots first.

* `Pattern.covers_iff`: the rows of a pattern are the bits that fit its slots;
* `Pattern.covers_of_merge?`: merging two patterns joins their rows;
* `Pattern.exists_merge?_of_inside`: a cube inside a larger one has a neighbour in it;
* `Pattern.exists_halves`: a pattern with a free position is merged from its lower and its upper
  half;
* `Pattern.exists_of_width`: a cube of rows below a bound has a pattern of the width of the
  bound.
-/
import TwoLevel.Ascending
import TwoLevel.Pattern

namespace TwoLevel
namespace Slot

/-! ## 1. The rows of a list of slots -/

/-- Whether a row agrees with the slots, bit by bit. -/
def fits : List Slot → List Bool → Bool
  | [], [] => true
  | s :: ss, b :: bs => s.admits b && fits ss bs
  | _, _ => false

theorem length_of_fits {ss : List Slot} {bs : List Bool} (h : fits ss bs = true) :
    bs.length = ss.length := by
  fun_induction fits ss bs with
  | case1 => rfl
  | case2 s ss b bs ih => simp [ih (Bool.and_eq_true_iff.mp h).2]
  | case3 => cases h

@[simp] theorem fits_cons {s : Slot} {ss : List Slot} {b : Bool} {bs : List Bool} :
    fits (s :: ss) (b :: bs) = true ↔ s.admits b = true ∧ fits ss bs = true :=
  Bool.and_eq_true_iff

/-- A row that fits starts with a bit that the first slot admits. -/
theorem exists_of_fits_cons {s : Slot} {ss : List Slot} {bs : List Bool}
    (h : fits (s :: ss) bs = true) :
    ∃ b bs', bs = b :: bs' ∧ s.admits b = true ∧ fits ss bs' = true := by
  cases bs with
  | nil => cases h
  | cons b bs => exact ⟨b, bs, rfl, fits_cons.mp h⟩

theorem fits_eq_all {ss : List Slot} {bs : List Bool} (h : bs.length = ss.length) :
    fits ss bs = (ss.zip bs).all fun (s, b) => s.admits b := by
  fun_induction fits ss bs with
  | case1 => rfl
  | case2 s ss b bs ih => simp [ih (by simpa using h)]
  | case3 ss bs h1 h2 =>
    cases ss <;> cases bs
    · exact absurd rfl (h1 rfl)
    · cases h
    · cases h
    · exact absurd rfl (h2 _ _ _ _ rfl)

theorem exists_admits (s : Slot) : ∃ b, s.admits b = true := by
  cases s with
  | fixed v => exact ⟨v, by simp [admits]⟩
  | free => exact ⟨true, rfl⟩

/-- No list of slots is without rows. -/
theorem exists_fits (ss : List Slot) : ∃ bs, fits ss bs = true := by
  induction ss with
  | nil => exact ⟨[], rfl⟩
  | cons s ss ih =>
    obtain ⟨b, hb⟩ := exists_admits s
    obtain ⟨bs, hbs⟩ := ih
    exact ⟨b :: bs, fits_cons.mpr ⟨hb, hbs⟩⟩

/-- Without free slots there is only one row. -/
theorem eq_of_fits {ss : List Slot} (hc : ss.count .free = 0) {xs ys : List Bool}
    (hx : fits ss xs = true) (hy : fits ss ys = true) : xs = ys := by
  induction ss generalizing xs ys with
  | nil =>
    rw [List.eq_nil_of_length_eq_zero (length_of_fits hx),
      List.eq_nil_of_length_eq_zero (length_of_fits hy)]
  | cons s ss ih =>
    obtain ⟨x, xs, rfl, hx, hxs⟩ := exists_of_fits_cons hx
    obtain ⟨y, ys, rfl, hy, hys⟩ := exists_of_fits_cons hy
    cases s with
    | free => simp at hc
    | fixed v =>
      have exy : x = y := (of_decide_eq_true hx).symm.trans (of_decide_eq_true hy)
      rw [exy, ih (by simpa using hc) hxs hys]

/-! ## 2. Freeing slots -/

/-- The second list frees some slots of the first and keeps the others. -/
inductive Loosens : List Slot → List Slot → Prop
  | nil : Loosens [] []
  | keep (s : Slot) {ss ts : List Slot} (h : Loosens ss ts) : Loosens (s :: ss) (s :: ts)
  | release (v : Bool) {ss ts : List Slot} (h : Loosens ss ts) :
      Loosens (.fixed v :: ss) (.free :: ts)

theorem Loosens.fits {ss ts : List Slot} (h : Loosens ss ts) {bs : List Bool}
    (hb : fits ss bs = true) : fits ts bs = true := by
  induction h generalizing bs with
  | nil => exact hb
  | keep s h ih =>
    obtain ⟨b, bs, rfl, hs, hss⟩ := exists_of_fits_cons hb
    exact fits_cons.mpr ⟨hs, ih hss⟩
  | release v h ih =>
    obtain ⟨b, bs, rfl, -, hss⟩ := exists_of_fits_cons hb
    exact fits_cons.mpr ⟨rfl, ih hss⟩

/-- A slot that admits what another one admits is the same, or free. -/
theorem eq_or_free_of_admits {s t : Slot} (h : ∀ b, s.admits b = true → t.admits b = true) :
    s = t ∨ t = .free := by
  revert h
  rcases s with (_ | _) | _ <;> rcases t with (_ | _) | _ <;> decide

/-- Fewer rows, fewer free slots: a list of slots whose rows all fit another one of the same
length is loosened by it. -/
theorem loosens_of_fits {ss ts : List Slot} (hl : ss.length = ts.length)
    (h : ∀ bs, Slot.fits ss bs = true → Slot.fits ts bs = true) : Loosens ss ts := by
  induction ss generalizing ts with
  | nil => rw [List.eq_nil_of_length_eq_zero hl.symm]; exact .nil
  | cons s ss ih =>
    cases ts with
    | nil => cases hl
    | cons t ts =>
      obtain ⟨b₀, hb₀⟩ := exists_admits s
      obtain ⟨bs₀, hbs₀⟩ := exists_fits ss
      have hhead : ∀ b, s.admits b = true → t.admits b = true := fun b hb =>
        (fits_cons.mp (h (b :: bs₀) (fits_cons.mpr ⟨hb, hbs₀⟩))).1
      have htail : Loosens ss ts := ih (by simpa using hl) fun bs hbs =>
        (fits_cons.mp (h (b₀ :: bs) (fits_cons.mpr ⟨hb₀, hbs⟩))).2
      rcases eq_or_free_of_admits hhead with rfl | rfl
      · exact .keep s htail
      · cases s with
        | fixed v => exact .release v htail
        | free => exact .keep _ htail

theorem Loosens.count_le {ss ts : List Slot} (h : Loosens ss ts) :
    ss.count .free ≤ ts.count .free := by
  induction h with
  | nil => exact Nat.le_refl _
  | keep s h ih => simp only [List.count_cons]; omega
  | release v h ih => simp only [List.count_cons]; simp; omega

/-- No slot is freed where the number of free slots stays. -/
theorem Loosens.eq_of_count_le {ss ts : List Slot} (h : Loosens ss ts)
    (hc : ts.count .free ≤ ss.count .free) : ss = ts := by
  induction h with
  | nil => rfl
  | keep s h ih =>
    simp only [List.count_cons] at hc
    rw [ih (by omega)]
  | release v h ih =>
    have := h.count_le
    simp at hc
    omega

/-! ## 3. Merging -/

open Pattern (mergeSlots?)

/-- A row fits the merged slots when it fits those of either side. -/
theorem fits_mergeSlots? {ss ts us : List Slot} (h : mergeSlots? ss ts = some us)
    (bs : List Bool) : fits us bs = true ↔ fits ss bs = true ∨ fits ts bs = true := by
  fun_induction mergeSlots? ss ts generalizing us bs with
  | case1 ss ts ih =>
    obtain ⟨vs, hvs, rfl⟩ := Option.map_eq_some_iff.mp h
    cases bs with
    | nil => simp [fits]
    | cons b bs => simp [ih hvs, admits]
  | case2 u ss ts ih =>
    obtain ⟨vs, hvs, rfl⟩ := Option.map_eq_some_iff.mp h
    cases bs with
    | nil => simp [fits]
    | cons b bs => simp [ih hvs, and_or_left]
  | case3 u v ss huv =>
    cases h
    cases bs with
    | nil => simp [fits]
    | cons b bs =>
      have hb : u = b ∨ v = b := by cases u <;> cases v <;> cases b <;> simp_all
      simp only [fits_cons, admits, decide_eq_true_eq, ← or_and_right, hb, true_and]
  | case4 => cases h
  | case5 => cases h

/-- No row fits both sides of a merge. -/
theorem fits_eq_false_of_mergeSlots? {ss ts us : List Slot} (h : mergeSlots? ss ts = some us)
    {bs : List Bool} (hbs : fits ss bs = true) : fits ts bs = false := by
  fun_induction mergeSlots? ss ts generalizing us bs with
  | case1 ss ts ih | case2 u ss ts ih =>
    obtain ⟨vs, hvs, rfl⟩ := Option.map_eq_some_iff.mp h
    obtain ⟨b, bs, rfl, hb, hbs⟩ := exists_of_fits_cons hbs
    rw [fits, ih hvs hbs, Bool.and_false]
  | case3 u v ss huv =>
    obtain ⟨b, bs, rfl, hb, hbs⟩ := exists_of_fits_cons hbs
    obtain rfl : u = b := of_decide_eq_true hb
    rw [fits, admits, decide_eq_false (Ne.symm huv), Bool.false_and]
  | case4 => cases h
  | case5 => cases h

theorem count_mergeSlots? {ss ts us : List Slot} (h : mergeSlots? ss ts = some us) :
    us.count .free = ss.count .free + 1 := by
  fun_induction mergeSlots? ss ts generalizing us with
  | case1 ss ts ih | case2 u ss ts ih =>
    obtain ⟨vs, hvs, rfl⟩ := Option.map_eq_some_iff.mp h
    simp [ih hvs]
  | case3 => cases h; simp
  | case4 => cases h
  | case5 => cases h

theorem mergeSlots?_comm (ss ts : List Slot) : mergeSlots? ss ts = mergeSlots? ts ss := by
  induction ss generalizing ts with
  | nil =>
    cases ts with
    | nil => rfl
    | cons t ts => cases t <;> rfl
  | cons s ss ih =>
    cases ts with
    | nil => cases s <;> rfl
    | cons t ts =>
      cases s with
      | free => cases t <;> simp [mergeSlots?, ih]
      | fixed u =>
        cases t with
        | free => rfl
        | fixed v =>
          by_cases huv : u = v
          · simp [mergeSlots?, huv, ih]
          · by_cases hst : ss = ts
            · simp [mergeSlots?, huv, Ne.symm huv, hst]
            · simp [mergeSlots?, huv, Ne.symm huv, hst, Ne.symm hst]

/-- Slots that can be loosened further have a neighbour with which they merge on the way. -/
theorem Loosens.exists_merge {ss ts : List Slot} (h : Loosens ss ts) (hne : ss ≠ ts) :
    ∃ neighbour us, mergeSlots? ss neighbour = some us ∧ Loosens us ts := by
  induction h with
  | nil => exact absurd rfl hne
  | keep s h ih =>
    obtain ⟨ns, us, hm, hl⟩ := ih fun e => hne (e ▸ rfl)
    refine ⟨s :: ns, s :: us, ?_, .keep s hl⟩
    cases s <;> simp [mergeSlots?, hm]
  | @release v ss ts h ih =>
    exact ⟨.fixed (!v) :: ss, .free :: ss, by simp [mergeSlots?], .keep _ h⟩

/-- Slots with a free one are merged from those where the first free slot is false and those
where it is true; each row of the former comes before each row of the latter. -/
theorem exists_halves {us : List Slot} (h : 0 < us.count .free) :
    ∃ lo hi, mergeSlots? lo hi = some us ∧
      ∀ xs ys, fits lo xs = true → fits hi ys = true → RowIndex.ofBits xs < RowIndex.ofBits ys := by
  induction us with
  | nil => simp at h
  | cons u us ih =>
    cases u with
    | free =>
      refine ⟨.fixed false :: us, .fixed true :: us, by simp [mergeSlots?], fun xs ys hx hy => ?_⟩
      obtain ⟨x, xs, rfl, hx, hxs⟩ := exists_of_fits_cons hx
      obtain ⟨y, ys, rfl, hy, hys⟩ := exists_of_fits_cons hy
      have ex : x = false := (of_decide_eq_true hx).symm
      have ey : y = true := (of_decide_eq_true hy).symm
      have hlen : xs.length = ys.length := by rw [length_of_fits hxs, length_of_fits hys]
      have hlt := RowIndex.ofBits_lt xs
      simp only [RowIndex.ofBits, ex, ey, ← hlen, Bool.toNat_false, Bool.toNat_true]
      omega
    | fixed v =>
      obtain ⟨lo, hi, hm, hlt⟩ := ih (by simpa using h)
      refine ⟨.fixed v :: lo, .fixed v :: hi, by simp [mergeSlots?, hm], fun xs ys hx hy => ?_⟩
      obtain ⟨x, xs, rfl, hx, hxs⟩ := exists_of_fits_cons hx
      obtain ⟨y, ys, rfl, hy, hys⟩ := exists_of_fits_cons hy
      have exy : x = y := (of_decide_eq_true hx).symm.trans (of_decide_eq_true hy)
      have hlen : xs.length = ys.length := by
        rw [length_of_fits hxs, length_of_fits hys, ← Pattern.length_of_mergeSlots? hm,
          Pattern.length_of_mergeSlots? (mergeSlots?_comm lo hi ▸ hm)]
      have := hlt xs ys hxs hys
      simp only [RowIndex.ofBits, exy, hlen]
      omega

end Slot

/-! ## 4. The rows of a pattern -/

namespace Pattern

/-- Every row of the first pattern is a row of the second. -/
def Inside (p q : Pattern) : Prop := ∀ t, p.covers t = true → q.covers t = true

/-- The rows of a pattern are the bits that fit its slots. -/
theorem covers_iff {p : Pattern} {t : Nat} :
    p.covers t = true ↔ ∃ bs, Slot.fits p.slots bs = true ∧ RowIndex.ofBits bs = t := by
  have hlen : (RowIndex.bits p.width t).length = p.slots.length := by simp [width]
  simp only [covers, Bool.and_eq_true, decide_eq_true_eq, ← Slot.fits_eq_all hlen]
  constructor
  · rintro ⟨ht, hf⟩
    exact ⟨_, hf, by rw [RowIndex.ofBits_bits, Nat.mod_eq_of_lt ht]⟩
  · rintro ⟨bs, hf, rfl⟩
    have hbs : bs.length = p.width := Slot.length_of_fits hf
    rw [← hbs]
    exact ⟨RowIndex.ofBits_lt bs, by rwa [RowIndex.bits_ofBits]⟩

theorem lt_of_covers {p : Pattern} {t : Nat} (h : p.covers t = true) :
    t < RowIndex.count p.width := by
  simp only [covers, Bool.and_eq_true, decide_eq_true_eq] at h
  exact h.1

/-- No pattern is without rows. -/
theorem exists_covers (p : Pattern) : ∃ t, p.covers t = true := by
  obtain ⟨bs, hbs⟩ := Slot.exists_fits p.slots
  exact ⟨_, covers_iff.mpr ⟨bs, hbs, rfl⟩⟩

/-- A row given by its bits is covered when the bits fit. -/
theorem covers_ofBits {p : Pattern} {bs : List Bool} (hl : bs.length = p.width) :
    p.covers (RowIndex.ofBits bs) = true ↔ Slot.fits p.slots bs = true := by
  constructor
  · intro h
    obtain ⟨cs, hcs, e⟩ := covers_iff.mp h
    have hlen : cs.length = bs.length := (Slot.length_of_fits hcs).trans hl.symm
    have : cs = bs := by rw [← RowIndex.bits_ofBits cs, e, hlen, RowIndex.bits_ofBits]
    exact this ▸ hcs
  · exact fun h => covers_iff.mpr ⟨bs, h, rfl⟩

/-- One cube lies inside another of the same width exactly when slots were freed. -/
theorem inside_iff_loosens {p q : Pattern} (hw : p.width = q.width) :
    p.Inside q ↔ Slot.Loosens p.slots q.slots := by
  constructor
  · intro h
    refine Slot.loosens_of_fits hw fun bs hbs => ?_
    have hl : bs.length = p.width := Slot.length_of_fits hbs
    exact (covers_ofBits (hl.trans hw)).mp (h _ ((covers_ofBits hl).mpr hbs))
  · intro h t ht
    obtain ⟨bs, hbs, rfl⟩ := covers_iff.mp ht
    exact covers_iff.mpr ⟨bs, h.fits hbs, rfl⟩

theorem freeCount_le_width (p : Pattern) : p.freeCount ≤ p.width := List.count_le_length

theorem ext_slots {p q : Pattern} (h : p.slots = q.slots) : p = q := by
  cases p
  cases q
  cases h
  rfl

/-- A cube inside another one with no more free positions is that cube. -/
theorem eq_of_inside {p q : Pattern} (hw : p.width = q.width) (h : p.Inside q)
    (hc : q.freeCount ≤ p.freeCount) : p = q :=
  ext_slots (((inside_iff_loosens hw).mp h).eq_of_count_le hc)

/-! ## 5. Merging patterns -/

/-- Merging joins the rows. -/
theorem covers_of_merge? {p q r : Pattern} (h : p.merge? q = some r) (t : Nat) :
    r.covers t = true ↔ p.covers t = true ∨ q.covers t = true := by
  simp only [covers_iff, Slot.fits_mergeSlots? (merge?_eq_some_iff.mp h), or_and_right,
    exists_or]

theorem freeCount_of_merge? {p q r : Pattern} (h : p.merge? q = some r) :
    r.freeCount = p.freeCount + 1 :=
  Slot.count_mergeSlots? (merge?_eq_some_iff.mp h)

theorem merge?_comm {p q r : Pattern} (h : p.merge? q = some r) : q.merge? p = some r := by
  rw [merge?_eq_some_iff, Slot.mergeSlots?_comm]
  exact merge?_eq_some_iff.mp h

/-- A pattern that is merged from two has their width. -/
theorem widths_of_merge? {p q r : Pattern} (h : p.merge? q = some r) :
    p.width = r.width ∧ q.width = r.width :=
  ⟨(width_of_merge? h).symm, (width_of_merge? (merge?_comm h)).symm⟩

/-- Neighbours have no row in common. -/
theorem covers_eq_false_of_merge? {p q r : Pattern} (h : p.merge? q = some r) {t : Nat}
    (ht : p.covers t = true) : q.covers t = false := by
  obtain ⟨bs, hbs, rfl⟩ := covers_iff.mp ht
  have hlen : bs.length = q.width :=
    (Slot.length_of_fits hbs).trans ((widths_of_merge? h).1.trans (widths_of_merge? h).2.symm)
  refine Bool.eq_false_iff.mpr fun hq => ?_
  have := (covers_ofBits hlen).mp hq
  rw [Slot.fits_eq_false_of_mergeSlots? (merge?_eq_some_iff.mp h) hbs] at this
  cases this

/-- **A cube inside a larger one has a neighbour in it.** -/
theorem exists_merge?_of_inside {p q : Pattern} (hw : p.width = q.width) (h : p.Inside q)
    (hne : p ≠ q) : ∃ neighbour r, p.merge? neighbour = some r ∧ r.Inside q := by
  obtain ⟨ns, us, hm, hl⟩ := ((inside_iff_loosens hw).mp h).exists_merge
    fun e => hne (ext_slots e)
  have hus : us.length = p.width := length_of_mergeSlots? hm
  have hns : ns.length = p.width :=
    (length_of_mergeSlots? (Slot.mergeSlots?_comm p.slots ns ▸ hm)).symm.trans hus
  refine ⟨⟨ns, hns ▸ p.length_le⟩, ⟨us, hus ▸ p.length_le⟩, merge?_eq_some_iff.mpr hm, ?_⟩
  have hr : Pattern.width ⟨us, hus ▸ p.length_le⟩ = q.width := hus.trans hw
  exact (inside_iff_loosens hr).mpr hl

/-- **A pattern with a free position is merged from two halves**, one before the other. -/
theorem exists_halves {r : Pattern} (h : 0 < r.freeCount) :
    ∃ lo hi, Pattern.merge? lo hi = some r ∧
      ∀ s t, lo.covers s = true → hi.covers t = true → s < t := by
  obtain ⟨lo, hi, hm, hlt⟩ := Slot.exists_halves h
  have hlo : lo.length = r.slots.length := (length_of_mergeSlots? hm).symm
  have hhi : hi.length = r.slots.length :=
    (length_of_mergeSlots? (Slot.mergeSlots?_comm lo hi ▸ hm)).symm
  refine ⟨⟨lo, hlo ▸ r.length_le⟩, ⟨hi, hhi ▸ r.length_le⟩, merge?_eq_some_iff.mpr hm, ?_⟩
  intro s t hs ht
  obtain ⟨xs, hxs, rfl⟩ := covers_iff.mp hs
  obtain ⟨ys, hys, rfl⟩ := covers_iff.mp ht
  exact hlt xs ys hxs hys

/-- Inside each cube there are cubes with any smaller number of free positions. -/
theorem exists_inside_of_le {p : Pattern} {n : Nat} (h : n ≤ p.freeCount) :
    ∃ q : Pattern, q.width = p.width ∧ q.freeCount = n ∧ q.Inside p := by
  obtain ⟨d, hd⟩ := Nat.exists_eq_add_of_le h
  induction d generalizing p with
  | zero => exact ⟨p, rfl, hd, fun _ ht => ht⟩
  | succ d ih =>
    obtain ⟨lo, hi, hm, -⟩ := exists_halves (r := p) (by omega)
    have hlo := freeCount_of_merge? hm
    obtain ⟨q, hqw, hqc, hq⟩ := ih (p := lo) (by omega) (by omega)
    exact ⟨q, hqw.trans (widths_of_merge? hm).1, hqc, fun t ht =>
      (covers_of_merge? hm t).mpr (.inl (hq t ht))⟩

/-! ## 6. How many rows there are -/

/-- The rows of a pattern are those of its lower half and then those of its upper half. -/
theorem terms_eq_append {lo hi r : Pattern} (h : Pattern.merge? lo hi = some r)
    (hlt : ∀ s t, lo.covers s = true → hi.covers t = true → s < t) :
    r.terms = lo.terms ++ hi.terms := by
  have hpw : (lo.terms ++ hi.terms).Pairwise (· < ·) := by
    refine List.pairwise_append.mpr ⟨lo.pairwise_terms, hi.pairwise_terms, fun s hs t ht => ?_⟩
    exact hlt s t (mem_terms.mp hs) (mem_terms.mp ht)
  have hset : (⟨r.terms, r.pairwise_terms⟩ : TermSet) = ⟨lo.terms ++ hi.terms, hpw⟩ := by
    refine Ascending.ext_mem fun t => ?_
    simp only [Ascending.mem_def, List.mem_append, mem_terms]
    exact covers_of_merge? h t
  exact congrArg Ascending.toList hset

/-- **A pattern covers two rows for each choice of values at its free positions.** -/
theorem length_terms (p : Pattern) : p.terms.length = RowIndex.count p.freeCount := by
  induction hn : p.freeCount generalizing p with
  | zero =>
    obtain ⟨t, ht⟩ := p.exists_covers
    have hset : (⟨p.terms, p.pairwise_terms⟩ : TermSet) = ⟨[t], List.pairwise_singleton _ _⟩ := by
      refine Ascending.ext_mem fun s => ?_
      rw [Ascending.mem_def, Ascending.mem_def, mem_terms, List.mem_singleton]
      constructor
      · intro hs
        obtain ⟨xs, hxs, rfl⟩ := covers_iff.mp hs
        obtain ⟨ys, hys, rfl⟩ := covers_iff.mp ht
        rw [Slot.eq_of_fits hn hxs hys]
      · rintro rfl
        exact ht
    exact congrArg (·.toList.length) hset
  | succ n ih =>
    obtain ⟨lo, hi, hm, hlt⟩ := exists_halves (r := p) (by omega)
    have hlo := freeCount_of_merge? hm
    have hhi := freeCount_of_merge? (merge?_comm hm)
    rw [terms_eq_append hm hlt, List.length_append, ih lo (by omega), ih hi (by omega),
      RowIndex.count_succ]

/-! ## 7. Patterns of another width -/

/-- A first position fixed at false changes nothing about the rows. -/
theorem covers_cons_fixed_false {p q : Pattern} (h : p.slots = .fixed false :: q.slots) (t : Nat) :
    p.covers t = true ↔ q.covers t = true := by
  rw [covers_iff, covers_iff, h]
  constructor
  · rintro ⟨bs, hbs, rfl⟩
    obtain ⟨b, bs, rfl, hb, hbs⟩ := Slot.exists_of_fits_cons hbs
    have eb : b = false := (of_decide_eq_true hb).symm
    exact ⟨bs, hbs, by simp [RowIndex.ofBits, eb]⟩
  · rintro ⟨bs, hbs, rfl⟩
    exact ⟨false :: bs, Slot.fits_cons.mpr ⟨rfl, hbs⟩, by simp [RowIndex.ofBits]⟩

theorem count_le_count {m n : Nat} (h : m ≤ n) : RowIndex.count m ≤ RowIndex.count n := by
  obtain ⟨d, rfl⟩ := Nat.exists_eq_add_of_le h
  induction d with
  | zero => exact Nat.le_refl _
  | succ d ih =>
    have hd := ih (Nat.le_add_right m d)
    rw [← Nat.add_assoc, RowIndex.count_succ]
    omega

/-- A pattern that is too wide for its rows starts with a position fixed at false. -/
theorem eq_fixed_false_of_covers_lt {p : Pattern} {width : Nat} {s : Slot} {ss : List Slot}
    (hs : p.slots = s :: ss) (hw : width ≤ ss.length)
    (h : ∀ t, p.covers t = true → t < RowIndex.count width) : s = .fixed false := by
  obtain ⟨bs, hbs⟩ := Slot.exists_fits ss
  have hne : s.admits true = false := by
    refine Bool.eq_false_iff.mpr fun ha => ?_
    have hlt := h (RowIndex.ofBits (true :: bs))
      (covers_iff.mpr ⟨_, hs ▸ Slot.fits_cons.mpr ⟨ha, hbs⟩, rfl⟩)
    have hle := count_le_count hw
    simp only [RowIndex.ofBits, Bool.toNat_true, Slot.length_of_fits hbs] at hlt
    omega
  revert hne
  rcases s with (_ | _) | _ <;> decide

/-- **A cube of rows below a bound has a pattern of the width of the bound.** -/
theorem exists_of_width {q : Pattern} {width : Nat} (hwidth : width ≤ maxVariables)
    (h : ∀ t, q.covers t = true → t < RowIndex.count width) :
    ∃ p : Pattern, p.width = width ∧ ∀ t, p.covers t = true ↔ q.covers t = true := by
  rcases Nat.le_total q.width width with hle | hle
  · -- positions fixed at false are put in front
    obtain ⟨d, rfl⟩ := Nat.exists_eq_add_of_le hle
    induction d with
    | zero => exact ⟨q, rfl, fun _ => Iff.rfl⟩
    | succ d ih =>
      have hq : ∀ t, q.covers t = true → t < RowIndex.count (q.width + d) := fun t ht =>
        Nat.lt_of_lt_of_le (lt_of_covers ht) (count_le_count (Nat.le_add_right _ _))
      obtain ⟨p, hpw, hp⟩ := ih (by omega) hq (by omega)
      have hlen : p.slots.length = q.width + d := hpw
      refine ⟨⟨.fixed false :: p.slots, by simp [hlen]; omega⟩, by simp [width, hlen]; rfl,
        fun t => (covers_cons_fixed_false rfl t).trans (hp t)⟩
  · -- positions fixed at false are taken away from the front
    obtain ⟨d, hd⟩ := Nat.exists_eq_add_of_le hle
    induction d generalizing q with
    | zero => exact ⟨q, hd, fun _ => Iff.rfl⟩
    | succ d ih =>
      cases hs : q.slots with
      | nil => simp [Pattern.width, hs] at hd
      | cons s ss =>
        have hss : ss.length = width + d := by
          simp only [Pattern.width, hs, List.length_cons] at hd
          omega
        have hmax : ss.length ≤ maxVariables := by
          have hq := q.length_le
          rw [hs, List.length_cons] at hq
          omega
        have hs0 := eq_fixed_false_of_covers_lt hs (by omega) h
        have hq := covers_cons_fixed_false (p := q) (q := ⟨ss, hmax⟩) (hs0 ▸ hs)
        obtain ⟨p, hpw, hp⟩ := ih (q := ⟨ss, hmax⟩) (fun t ht => h t ((hq t).mpr ht))
          (by simp [Pattern.width, hss]) hss
        exact ⟨p, hpw, fun t => (hp t).trans (hq t).symm⟩

end Pattern
end TwoLevel
