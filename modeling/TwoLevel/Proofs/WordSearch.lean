/-
# The search on machine words

A machine reads the bits of a row with masks and shifts one to get a mask or a number of rows.  In a
word of so many bits, one cannot be shifted by that many places or more.  This file follows the
search with each shift checked, and with the check that two implicants have one width made where
they are merged (`Word.primeImplicants`).

Both checks always pass.  The number of positions is compared with `maxVariables` before anything
is shifted by it, and no later shift is larger; all members of a generation are cubes of one width
(`Generation.IsCubes`).  So the search on words is the search, and fails as it does.

* `Word.covers_eq_ok`, `Word.implicantOfTerm_eq`: rows are read with masks as they are with bits;
* `Generation.IsCubes.combines_eq_ok`: no two members of a generation differ in width;
* `Word.primeImplicants_eq`: the search on words is the search;
* `primeImplicants_outcome`: when the search fails, and how.
-/
import Mathlib.Data.Nat.Bitwise
import TwoLevel.Proofs.PrimeImplicants
import TwoLevel.Proofs.TableValues

namespace TwoLevel

/-! ## 1. Words -/

/-- What stops a computation on words. -/
inductive Stop where
  /-- One was to be shifted out of the word. -/
  | overflow
  | error (e : Error)
  deriving DecidableEq, Repr

namespace Word

/-- One shifted by some places, in a word of `bits` bits. -/
def shift (bits places : Nat) : Except Stop Nat :=
  if places < bits then .ok (1 <<< places) else .error .overflow

/-- The bit at a place, read with a mask. -/
def bit (bits index place : Nat) : Except Stop Bool := do
  let mask ← shift bits place
  return index &&& mask != 0

/-- The lowest `width` bits of an index, the most significant first. -/
def row (bits index : Nat) : (width : Nat) → Except Stop {bs : List Bool // bs.length = width}
  | 0 => .ok ⟨[], rfl⟩
  | width + 1 => do
    let b ← bit bits index width
    let bs ← row bits index width
    return ⟨b :: bs.val, congrArg (· + 1) bs.property⟩

/-- The pattern of a single row. -/
def patternOfTerm (bits term width : Nat) : Except Stop Pattern :=
  if h : width ≤ maxVariables then do
    let count ← shift bits width
    if count ≤ term then .error (.error (.termOutOfRange term width))
    else
      let bs ← row bits term width
      return ⟨bs.val.map .fixed, by simpa [bs.property] using h⟩
  else .error (.error (.tooManyVariables width))

/-- The implicant of a single row; its set is made with room for every row. -/
def implicantOfTerm (bits term width : Nat) : Except Stop Implicant := do
  let p ← patternOfTerm bits term width
  let _room ← shift bits width
  return .ofCovered p (Ascending.ofList [term])

/-- Whether a row agrees with slots.  The bits are read until one does not agree. -/
def agrees (bits term : Nat) : List Slot → Except Stop Bool
  | [] => .ok true
  | s :: ss => do
    let b ← bit bits term ss.length
    if s.admits b then agrees bits term ss else .ok false

/-- Whether a row agrees with a pattern. -/
def covers (bits : Nat) (p : Pattern) (term : Nat) : Except Stop Bool := do
  let count ← shift bits p.width
  if count ≤ term then .ok false else agrees bits term p.slots

/-- The implicant of all rows of a pattern. -/
def implicantOfPattern (bits : Nat) (p : Pattern) : Except Stop Implicant := do
  let count ← shift bits p.width
  let ts ← (List.range count).filterM (covers bits p)
  return .ofCovered p (Ascending.ofList ts)

section

variable {bits : Nat}

theorem shift_eq_ok {places : Nat} (h : places < bits) :
    shift bits places = .ok (RowIndex.count places) :=
  if_pos h

theorem bit_eq_ok (index : Nat) {place : Nat} (h : place < bits) :
    bit bits index place = .ok (index.testBit place) := by
  have hmask : (index &&& 1 <<< place != 0) = index.testBit place := by
    rw [Nat.one_shiftLeft, Nat.and_comm, Nat.two_pow_and]
    cases index.testBit place <;> simp
  simp only [bit, shift, if_pos h, bind, Except.bind, hmask]
  rfl

theorem row_eq_ok (index : Nat) {width : Nat} (h : width ≤ bits) :
    row bits index width = .ok ⟨RowIndex.bits width index, RowIndex.length_bits width index⟩ := by
  induction width with
  | zero => rfl
  | succ width ih =>
    have hplace : width < bits := h
    simp only [row, bit_eq_ok index hplace, ih (Nat.le_of_lt hplace), bind, Except.bind]
    rfl

theorem agrees_eq_ok {term : Nat} {ss : List Slot} (h : ss.length ≤ bits) :
    agrees bits term ss
      = .ok ((ss.zip (RowIndex.bits ss.length term)).all fun (s, b) => s.admits b) := by
  induction ss with
  | nil => rfl
  | cons s ss ih =>
    rw [List.length_cons] at h
    simp only [agrees, bit_eq_ok term (Nat.lt_of_succ_le h), bind, Except.bind,
      ih (Nat.le_of_succ_le h), List.length_cons, RowIndex.bits, List.zip_cons_cons, List.all_cons]
    cases s.admits (term.testBit ss.length) <;> rfl

/-! Words with more bits than a pattern has positions. -/

variable (h : maxVariables < bits)
include h

theorem shift_width {width : Nat} (hwidth : width ≤ maxVariables) :
    shift bits width = .ok (RowIndex.count width) :=
  shift_eq_ok (Nat.lt_of_le_of_lt hwidth h)

/-- Masks read the slots of a row as its bits do. -/
theorem patternOfTerm_eq (term width : Nat) :
    patternOfTerm bits term width = (Pattern.ofTerm term width).mapError .error := by
  by_cases hwidth : width ≤ maxVariables
  · have hbits : width ≤ bits := Nat.le_of_lt (Nat.lt_of_le_of_lt hwidth h)
    rw [patternOfTerm, Pattern.ofTerm, dif_pos hwidth, dif_pos hwidth, shift_width h hwidth]
    by_cases ht : term < RowIndex.count width
    · simp only [bind, Except.bind, if_neg (Nat.not_le.mpr ht), if_pos ht, row_eq_ok term hbits]
      rfl
    · simp only [bind, Except.bind, if_pos (Nat.not_lt.mp ht), if_neg ht]
      rfl
  · rw [patternOfTerm, Pattern.ofTerm, dif_neg hwidth, dif_neg hwidth]
    rfl

theorem implicantOfTerm_eq (term width : Nat) :
    implicantOfTerm bits term width = (Implicant.ofTerm term width).mapError .error := by
  rw [implicantOfTerm, Implicant.ofTerm, patternOfTerm_eq h]
  cases hp : Pattern.ofTerm term width with
  | error e => rfl
  | ok p =>
    have hwidth := (Pattern.ofTerm_eq_ok_iff.mp hp).1
    simp only [Except.mapError, Except.map, bind, Except.bind, shift_width h hwidth]
    rfl

/-- **A pattern covers a row by its masks when it does by its bits.** -/
theorem covers_eq_ok (p : Pattern) (term : Nat) :
    covers bits p term = .ok (p.covers term) := by
  have hbits : p.slots.length ≤ bits := Nat.le_of_lt (Nat.lt_of_le_of_lt p.length_le h)
  have hshift : shift bits p.width = .ok (RowIndex.count p.width) := shift_width h p.length_le
  simp only [covers, hshift, bind, Except.bind, Pattern.covers]
  by_cases ht : term < RowIndex.count p.width
  · rw [if_neg (Nat.not_le.mpr ht), agrees_eq_ok hbits, decide_eq_true ht, Bool.true_and]
    rfl
  · rw [if_pos (Nat.not_lt.mp ht), decide_eq_false ht, Bool.false_and]

theorem implicantOfPattern_eq_ok (p : Pattern) :
    implicantOfPattern bits p = .ok (.ofPattern p) := by
  have hset : Ascending.ofList p.terms = (Implicant.ofPattern p).covered :=
    Ascending.ext_mem fun t => by
      rw [Ascending.mem_ofList, Pattern.mem_terms, Implicant.mem_covered_ofPattern]
  have hshift : shift bits p.width = .ok (RowIndex.count p.width) := shift_width h p.length_le
  have hterms : (List.range (RowIndex.count p.width)).filterM (covers bits p) = .ok p.terms :=
    filterM_eq_ok (covers_eq_ok h p) _
  simp only [implicantOfPattern, hshift, bind, Except.bind, hterms, hset]
  rfl

end

end Word

/-! ## 2. Generations -/

namespace Generation

variable {terms : List Nat} {width : Nat} {g : Generation}

/-- The merges of a generation, where two members of different widths are an error. -/
def combines (g : Generation) : Except Error (List Merge) :=
  (collect (fun (i, j) => (i.combine j).map fun r => r.map fun m => ⟨i, j, m⟩)
    (pairs g.members)).map (·.filterMap id)

/-- The implicants of merged patterns, each pattern once. -/
def offspringOf (ms : List Merge) : List Implicant :=
  let products := ms.map (·.product)
  (distinct (products.map (·.pattern))).map fun p => .ofCovered p (coveredBy products p)

theorem offspringOf_merges (g : Generation) : offspringOf g.merges = g.offspring := rfl

/-- Where all members have one width, merging does not fail. -/
theorem combines_eq_ok
    (h : ∀ i ∈ g.members, ∀ j ∈ g.members, i.pattern.width = j.pattern.width) :
    g.combines = .ok g.merges := by
  have hcollect : collect (fun (i, j) => (i.combine j).map fun r => r.map fun m => ⟨i, j, m⟩)
      (pairs g.members)
      = .ok ((pairs g.members).map fun (i, j) => (i.merge? j).map fun m => Merge.mk i j m) := by
    rw [collect_eq_ok_iff, List.map_map]
    refine List.map_congr_left fun ⟨i, j⟩ hij => ?_
    obtain ⟨hi, hj⟩ := mem_of_mem_pairs hij
    simp only [Implicant.combine_eq_merge? (h i hi j hj), Except.map, Function.comp_apply]
  rw [combines, hcollect, Except.map, List.filterMap_map]
  rfl

theorem IsCubes.width_eq (h : IsCubes terms width g) {i : Implicant} (hi : i ∈ g.members) :
    i.pattern.width = width :=
  ((h.mem i.pattern).mp (List.mem_map.mpr ⟨i, hi, rfl⟩)).1

/-- **The members of a generation are merged without an error.** -/
theorem IsCubes.combines_eq_ok (h : IsCubes terms width g) : g.combines = .ok g.merges :=
  Generation.combines_eq_ok fun _ hi _ hj => (h.width_eq hi).trans (h.width_eq hj).symm

/-- All generations of a search have the invariant. -/
theorem IsCubes.of_mem_succession (count : Nat) {g' : Generation} (h : IsCubes terms width g)
    (hg' : g' ∈ succession count g) : IsCubes terms width g' := by
  induction count generalizing g with
  | zero => cases hg'
  | succ count ih =>
    unfold succession at hg'
    split at hg'
    · cases hg'
    · rcases List.mem_cons.mp hg' with rfl | hg'
      · exact h
      · exact ih h.offspring hg'

end Generation

namespace Word

/-- The generation of some members and those that follow it, merged with the check of widths. -/
def succession (count : Nat) (g : Generation) : Except Error (List Generation) :=
  match count with
  | 0 => .ok []
  | count + 1 =>
    if g.members.isEmpty then .ok []
    else do
      let ms ← g.combines
      let gs ← succession count ⟨g.number + 1, Generation.offspringOf ms⟩
      return g :: gs

/-- **No two implicants of different widths meet.**  By induction on the generations. -/
theorem succession_eq_ok {terms : List Nat} {width : Nat} (count : Nat) {g : Generation}
    (h : Generation.IsCubes terms width g) :
    succession count g = .ok (Generation.succession count g) := by
  induction count generalizing g with
  | zero => rfl
  | succ count ih =>
    rw [succession, Generation.succession]
    split
    · rfl
    · simp only [h.combines_eq_ok, bind, Except.bind, Generation.offspringOf_merges, ih h.offspring]
      rfl

/-! ## 3. The search -/

/-- The prime implicants of the terms over a number of variables, in words of `bits` bits. -/
def primeImplicants (bits : Nat) (terms : List Nat) (width : Nat) :
    Except Stop (List Implicant) :=
  if terms.isEmpty then .ok []
  else do
    let universal ← (Pattern.universal width).mapError .error
    match ← terms.findM? fun t => (shift bits width).map (· ≤ t) with
    | some t => .error (.error (.termOutOfRange t width))
    | none =>
      let count ← shift bits width
      if (distinct terms).length = count then
        let i ← implicantOfPattern bits universal
        return [i]
      else
        let first ← collect (implicantOfTerm bits · width) (distinct terms)
        let gs ← (succession (width + 1) ⟨0, first⟩).mapError .error
        return gs.flatMap Generation.unmerged

/-- **The search on words is the search**, in words of more bits than a pattern has positions. -/
theorem primeImplicants_eq {bits : Nat} (h : maxVariables < bits) (terms : List Nat)
    (width : Nat) :
    primeImplicants bits terms width = (TwoLevel.primeImplicants terms width).mapError .error := by
  rw [primeImplicants, TwoLevel.primeImplicants, PrimeSearch.run]
  split
  · rfl
  · cases hu : Pattern.universal width with
    | error e => rfl
    | ok universal =>
      have hwidth := (Pattern.slots_of_universal hu).1
      have hshift : shift bits width = .ok (RowIndex.count width) := shift_width h hwidth
      have hfind : (terms.findM? fun t => (shift bits width).map (· ≤ t))
          = .ok (terms.find? (RowIndex.count width ≤ ·)) := by
        rw [hshift]
        exact List.findM?_pure _ terms
      simp only [Except.mapError, bind, Except.bind]
      rw [hfind, hshift]
      cases hfirst : terms.find? (RowIndex.count width ≤ ·) with
      | some t => rfl
      | none =>
        have hterms : ∀ t ∈ terms, t < RowIndex.count width := by
          intro t ht
          simpa using List.find?_eq_none.mp hfirst t ht
        by_cases hall : (distinct terms).length = RowIndex.count width
        · simp only [if_pos hall, implicantOfPattern_eq_ok h]
          rfl
        · simp only [if_neg hall, implicantOfTerm_eq h, collect_mapError]
          cases hc : collect (Implicant.ofTerm · width) (distinct terms) with
          | error e => rfl
          | ok first =>
            have hcubes := isCubes_first hterms hwidth hc
            simp only [Except.mapError, succession_eq_ok (width + 1) hcubes]
            rfl

/-- In a word with as many bits as there are positions, the number of rows does not fit. -/
example : primeImplicants 5 [0] 5 = .error .overflow := by rfl

/-- A search on words is stopped by what makes the search fail. -/
theorem primeImplicants_eq_error_iff {bits : Nat} (h : maxVariables < bits) {terms : List Nat}
    {width : Nat} {stop : Stop} :
    primeImplicants bits terms width = .error stop ↔
      ∃ e, TwoLevel.primeImplicants terms width = .error e ∧ .error e = stop := by
  rw [primeImplicants_eq h, mapError_eq_error_iff]

end Word

/-! ## 4. How the search ends -/

section Outcome

variable {terms : List Nat} {width : Nat}

theorem primeImplicants_nil (width : Nat) : primeImplicants [] width = .ok [] := rfl

/-- The number of positions is checked before the terms are. -/
theorem primeImplicants_of_lt (hne : terms ≠ []) (hwidth : maxVariables < width) :
    primeImplicants terms width = .error (.tooManyVariables width) := by
  have hu : Pattern.universal width = .error (.tooManyVariables width) :=
    dif_neg (Nat.not_le.mpr hwidth)
  rw [primeImplicants, PrimeSearch.run, if_neg (by simpa using hne), hu]
  rfl

/-- The first term that is no row is the one that is told. -/
theorem primeImplicants_of_le_term {before after : List Nat} {t : Nat}
    (hwidth : width ≤ maxVariables) (hbefore : ∀ s ∈ before, s < RowIndex.count width)
    (ht : RowIndex.count width ≤ t) :
    primeImplicants (before ++ t :: after) width = .error (.termOutOfRange t width) := by
  have hu : ∃ p, Pattern.universal width = .ok p := ⟨_, dif_pos hwidth⟩
  obtain ⟨p, hu⟩ := hu
  have hnone : before.find? (RowIndex.count width ≤ ·) = none :=
    List.find?_eq_none.mpr fun s hs => by simpa using hbefore s hs
  have hfind : (before ++ t :: after).find? (RowIndex.count width ≤ ·) = some t := by
    simp [List.find?_append, hnone, ht]
  rw [primeImplicants, PrimeSearch.run, if_neg (by simp), hu]
  simp only [bind, Except.bind, hfind]
  rfl

theorem exists_primeImplicants (hwidth : width ≤ maxVariables)
    (hterms : ∀ t ∈ terms, t < RowIndex.count width) :
    ∃ is, primeImplicants terms width = .ok is := by
  obtain ⟨s, hs⟩ := PrimeSearch.exists_run hwidth hterms
  exact ⟨s.primes, by rw [primeImplicants, hs]; rfl⟩

/-- Where there are not too many variables, only a term can be the failure. -/
theorem primeImplicants_of_le (terms : List Nat) (hwidth : width ≤ maxVariables) :
    (∃ t, primeImplicants terms width = .error (.termOutOfRange t width)) ∨
      ∃ is, primeImplicants terms width = .ok is := by
  by_cases hterms : ∃ t ∈ terms, RowIndex.count width ≤ t
  · obtain ⟨before, t, after, rfl, ht, hbefore⟩ := exists_first hterms
    exact .inl ⟨t, primeImplicants_of_le_term hwidth (fun s hs => Nat.not_le.mp (hbefore s hs)) ht⟩
  · exact .inr (exists_primeImplicants hwidth fun t ht =>
      Nat.not_le.mp fun hle => hterms ⟨t, ht, hle⟩)

theorem primeImplicants_eq_tooManyVariables_iff (hne : terms ≠ []) :
    primeImplicants terms width = .error (.tooManyVariables width) ↔ maxVariables < width := by
  refine ⟨fun h => Nat.not_le.mp fun hwidth => ?_, primeImplicants_of_lt hne⟩
  rcases primeImplicants_of_le terms hwidth with ⟨t, ht⟩ | ⟨is, his⟩
  · cases h.symm.trans ht
  · cases h.symm.trans his

/-- The search never fails for implicants of different widths. -/
theorem primeImplicants_ne_widthsDiffer (terms : List Nat) (width left right : Nat) :
    primeImplicants terms width ≠ .error (.widthsDiffer left right) := by
  intro h
  by_cases hne : terms = []
  · rw [hne, primeImplicants_nil] at h
    cases h
  · by_cases hwidth : width ≤ maxVariables
    · rcases primeImplicants_of_le terms hwidth with ⟨t, ht⟩ | ⟨is, his⟩
      · cases h.symm.trans ht
      · cases h.symm.trans his
    · cases h.symm.trans (primeImplicants_of_lt hne (Nat.not_le.mp hwidth))

/-- All members of all generations of a search have one width. -/
theorem PrimeSearch.width_of_mem_generations {gs : List Generation} {g : Generation}
    {i : Implicant} (h : run terms width = .ok (.generations gs)) (hg : g ∈ gs)
    (hi : i ∈ g.members) : i.pattern.width = width := by
  rcases cases_of_run h with ⟨-, hs⟩ | ⟨⟨hwidth, hterms⟩, ⟨_, -, -, hs⟩ | ⟨first, hfirst, hs⟩⟩
  · cases hs
  · cases hs
  · cases hs
    have hcubes := isCubes_first hterms hwidth hfirst
    exact (hcubes.of_mem_succession (width + 1) hg).width_eq hi

/-- **How the search ends.**  Without terms there is nothing to find, over however many variables.
Else more variables than are supported are the failure, then the first term that is no row, and
there is no other failure: in words of more bits than there are variables nothing is shifted out,
and the implicants that are compared have one width. -/
theorem primeImplicants_outcome (terms : List Nat) (width : Nat) :
    (terms = [] → primeImplicants terms width = .ok []) ∧
    (terms ≠ [] →
      (primeImplicants terms width = .error (.tooManyVariables width) ↔ maxVariables < width)) ∧
    (terms ≠ [] → width ≤ maxVariables →
      (∀ before t after, terms = before ++ t :: after → (∀ s ∈ before, s < 2 ^ width) →
        2 ^ width ≤ t → primeImplicants terms width = .error (.termOutOfRange t width)) ∧
      ((∀ t ∈ terms, t < 2 ^ width) → ∃ is, primeImplicants terms width = .ok is)) ∧
    (∀ bits, maxVariables < bits →
      Word.primeImplicants bits terms width = (primeImplicants terms width).mapError .error ∧
      Word.primeImplicants bits terms width ≠ .error .overflow ∧
      ∀ left right,
        Word.primeImplicants bits terms width ≠ .error (.error (.widthsDiffer left right))) ∧
    ∀ gs, PrimeSearch.run terms width = .ok (.generations gs) → ∀ g ∈ gs, ∀ i ∈ g.members,
      ∀ j ∈ g.members, i.pattern.width = j.pattern.width ∧ i.combine j = .ok (i.merge? j) := by
  simp only [← RowIndex.count_eq]
  refine ⟨?_, primeImplicants_eq_tooManyVariables_iff, fun _ hwidth => ⟨?_, ?_⟩,
    fun bits hbits => ?_, fun gs hgs g hg i hi j hj => ?_⟩
  · rintro rfl
    exact primeImplicants_nil width
  · rintro before t after rfl hbefore ht
    exact primeImplicants_of_le_term hwidth hbefore ht
  · exact exists_primeImplicants hwidth
  · refine ⟨Word.primeImplicants_eq hbits terms width, fun h => ?_, fun left right h => ?_⟩
    · obtain ⟨e, -, he⟩ := (Word.primeImplicants_eq_error_iff hbits).mp h
      cases he
    · obtain ⟨e, hfailure, he⟩ := (Word.primeImplicants_eq_error_iff hbits).mp h
      cases he
      exact primeImplicants_ne_widthsDiffer terms width left right hfailure
  · have hwidth := (PrimeSearch.width_of_mem_generations hgs hg hi).trans
      (PrimeSearch.width_of_mem_generations hgs hg hj).symm
    exact ⟨hwidth, Implicant.combine_eq_merge? hwidth⟩

/-- Words of 64 bits, with more variables than a word has bits and with a term that is no row. -/
theorem primeImplicants_outcome_in_64_bits :
    primeImplicants [] 70 = .ok [] ∧
      primeImplicants [0, 9] 70 = .error (.tooManyVariables 70) ∧
      primeImplicants [0, 9, 8] 3 = .error (.termOutOfRange 9 3) ∧
      (∃ is, primeImplicants [7, 0, 4, 0] 3 = .ok is) ∧
      Word.primeImplicants 64 [0, 9] 70 = .error (.error (.tooManyVariables 70)) ∧
      Word.primeImplicants 64 [7, 0, 4, 0] 3 ≠ .error .overflow ∧
      ∃ gs, PrimeSearch.run [7, 0, 4, 0] 3 = .ok (.generations gs) ∧ gs.length = 2 ∧
        ∀ g ∈ gs, ∀ i ∈ g.members, ∀ j ∈ g.members, i.combine j = .ok (i.merge? j) := by
  have hmany : primeImplicants [0, 9] 70 = .error (.tooManyVariables 70) :=
    ((primeImplicants_outcome [0, 9] 70).2.1 (by decide)).mpr (by decide)
  have hwords := ((primeImplicants_outcome [0, 9] 70).2.2.2.1 64 (by decide)).1
  obtain ⟨gs, hgs, hlength⟩ : ∃ gs,
      PrimeSearch.run [7, 0, 4, 0] 3 = .ok (.generations gs) ∧ gs.length = 2 := ⟨_, rfl, rfl⟩
  refine ⟨(primeImplicants_outcome [] 70).1 rfl, hmany, ?_, ?_, ?_, ?_, gs, hgs, hlength, ?_⟩
  · exact ((primeImplicants_outcome [0, 9, 8] 3).2.2.1 (by decide) (by decide)).1 [0] 9 [8] rfl
      (by decide) (by decide)
  · exact ((primeImplicants_outcome [7, 0, 4, 0] 3).2.2.1 (by decide) (by decide)).2 (by decide)
  · rw [hwords, hmany]
    rfl
  · exact ((primeImplicants_outcome [7, 0, 4, 0] 3).2.2.2.1 64 (by decide)).2.1
  · exact fun g hg i hi j hj =>
      ((primeImplicants_outcome [7, 0, 4, 0] 3).2.2.2.2 gs hgs g hg i hi j hj).2

end Outcome
end TwoLevel
