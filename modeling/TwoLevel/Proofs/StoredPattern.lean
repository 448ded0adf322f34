/-
# Patterns in cells

A pattern may be stored in a fixed number of cells, as many as there can be positions, together with
its width.  Two stored patterns are compared cell by cell, the cells after the last position
included, although these mean nothing.  Every way to make a stored pattern leaves them free, so they
never tell two patterns apart: stored patterns are equal when they have one text.

* `Pattern.store`: a pattern with free cells after its positions;
* `StoredPattern.combine_store`, `StoredPattern.parse_eq`: patterns in cells are merged and read as
  lists of slots are;
* `StoredPattern.Built.exists_store`: whatever is made in cells is a pattern that is stored;
* `Pattern.exists_parse_iff`, `Pattern.parse_eq_error`: the texts that denote a pattern, and the
  failure of all others;
* `StoredPattern.text_spec`: texts and equality of stored patterns.
-/
import TwoLevel.FirstFailure
import TwoLevel.Pattern

namespace TwoLevel

/-! ## 1. Cells -/

/-- A pattern in cells.  The first ones, as many as its width, are its positions. -/
structure StoredPattern where
  cells : Vector Slot maxVariables
  width : Nat
  width_le : width ≤ maxVariables
  deriving DecidableEq

namespace StoredPattern

/-- The positions of a stored pattern. -/
def slots (x : StoredPattern) : List Slot :=
  x.cells.toList.take x.width

/-- One character for each position. -/
def text (x : StoredPattern) : String :=
  String.ofList (x.slots.map Slot.char)

/-- The pattern of all rows. -/
def universal (width : Nat) : Except Error StoredPattern :=
  if h : width ≤ maxVariables then .ok ⟨Vector.replicate maxVariables .free, width, h⟩
  else .error (.tooManyVariables width)

/-- The pattern of a single row: the bits of the row are put into the first cells. -/
def ofTerm (term width : Nat) : Except Error StoredPattern :=
  if h : width ≤ maxVariables then
    if term < RowIndex.count width then
      let cells := Vector.ofFn fun k : Fin maxVariables =>
        if k < width then .fixed (term.testBit (width - 1 - k)) else .free
      .ok ⟨cells, width, h⟩
    else .error (.termOutOfRange term width)
  else .error (.tooManyVariables width)

/-- The place where slots differ, if they do so at one place and are fixed there on both sides.  The
places are counted from `place`, and a difference was found before at `found`. -/
def conflict? (found : Option Nat) (place : Nat) : List (Slot × Slot) → Option Nat
  | [] => found
  | (s, t) :: rest =>
    if s = t then conflict? found (place + 1) rest
    else if s = .free ∨ t = .free then none
    else if found.isSome then none
    else conflict? (some place) (place + 1) rest

/-- The cell of the one position where two patterns differ is freed. -/
def combine (x y : StoredPattern) : Except Error (Option StoredPattern) :=
  if x.width = y.width then
    .ok ((conflict? none 0 (x.slots.zip y.slots)).map fun k =>
      { x with cells := x.cells.setIfInBounds k .free })
  else .error (.widthsDiffer x.width y.width)

/-- The cells with the slots of characters put into them, from a place on. -/
def write? (cells : Vector Slot maxVariables) (place : Nat) :
    List Char → Option (Vector Slot maxVariables)
  | [] => some cells
  | c :: cs =>
    match Slot.ofChar? c with
    | some s => write? (cells.setIfInBounds place s) (place + 1) cs
    | none => none

/-- The pattern that a text denotes. -/
def parse (text : String) : Except Error StoredPattern :=
  if maxVariables < text.length then .error (.invalidPattern text)
  else do
    let x ← universal text.length
    match write? x.cells 0 text.toList with
    | some cells => .ok { x with cells := cells }
    | none => .error (.invalidPattern text)

end StoredPattern

/-- The pattern in cells, with free cells after its positions. -/
def Pattern.store (p : Pattern) : StoredPattern where
  cells := ⟨(p.slots ++ List.replicate (maxVariables - p.width) Slot.free).toArray, by
    have hp : p.slots.length ≤ maxVariables := p.length_le
    simp only [List.size_toArray, List.length_append, List.length_replicate, Pattern.width]
    omega⟩
  width := p.width
  width_le := p.length_le

namespace StoredPattern

variable {x y : StoredPattern} {p q : Pattern}

/-! ## 2. Storing a pattern -/

theorem ext_toList (hcells : x.cells.toList = y.cells.toList) (hw : x.width = y.width) : x = y := by
  cases x
  cases y
  cases Vector.toList_inj.mp hcells
  cases hw
  rfl

theorem toList_store (p : Pattern) :
    p.store.cells.toList = p.slots ++ List.replicate (maxVariables - p.width) Slot.free := rfl

@[simp] theorem slots_store (p : Pattern) : p.store.slots = p.slots := by
  rw [slots, toList_store]
  exact List.take_left

@[simp] theorem text_store (p : Pattern) : p.store.text = p.text := by
  rw [text, slots_store]
  rfl

theorem store_inj : p.store = q.store ↔ p = q := by
  refine ⟨fun h => ?_, congrArg _⟩
  have hslots : p.slots = q.slots := by rw [← slots_store p, h, slots_store]
  cases p
  cases q
  cases hslots
  rfl

/-! ## 3. Patterns made in cells -/

theorem universal_eq (width : Nat) :
    universal width = (Pattern.universal width).map Pattern.store := by
  rw [universal, Pattern.universal]
  split
  · next h =>
    refine congrArg Except.ok (ext_toList ?_ (by simp [Pattern.store, Pattern.width]))
    rw [Vector.toList_replicate, toList_store]
    simp [Pattern.width, h]
  · rfl

/-- The cells with the bits of a row are those bits, and free ones after them. -/
theorem ofFn_bits {term width : Nat} (h : width ≤ maxVariables) :
    (List.ofFn fun k : Fin maxVariables =>
        if k < width then Slot.fixed (term.testBit (width - 1 - k)) else .free)
      = (RowIndex.bits width term).map .fixed ++ List.replicate (maxVariables - width) .free := by
  refine List.ext_getElem? fun k => ?_
  have hlength : ((RowIndex.bits width term).map Slot.fixed).length = width := by simp
  rw [List.getElem?_ofFn, List.getElem?_append, hlength]
  by_cases hk : k < width
  · rw [if_pos hk, List.getElem?_map, RowIndex.getElem?_bits hk, dif_pos (Nat.lt_of_lt_of_le hk h)]
    simp [hk]
  · rw [if_neg hk, List.getElem?_replicate]
    by_cases hmax : k < maxVariables
    · have hpad : k - width < maxVariables - width := Nat.sub_lt_sub_right (Nat.not_lt.mp hk) hmax
      simp [hk, hmax, hpad]
    · have hpad : ¬ k - width < maxVariables - width := by omega
      simp [hmax, hpad]

theorem ofTerm_eq (term width : Nat) :
    ofTerm term width = (Pattern.ofTerm term width).map Pattern.store := by
  rw [ofTerm, Pattern.ofTerm]
  split
  · next h =>
    split
    · refine congrArg Except.ok (ext_toList ?_ (by simp [Pattern.store, Pattern.width]))
      rw [Vector.toList_ofFn, toList_store, ofFn_bits h]
      simp [Pattern.width]
    · rfl
  · rfl

/-! ## 4. Merging in cells -/

theorem conflict?_add_one (found : Option Nat) (place : Nat) (pairs : List (Slot × Slot)) :
    conflict? (found.map (· + 1)) (place + 1) pairs
      = (conflict? found place pairs).map (· + 1) := by
  fun_induction conflict? found place pairs with
  | case1 => rfl
  | case2 found place t rest ih => rw [conflict?, if_pos rfl, ih]
  | case3 found place s t rest hne hfree => rw [conflict?, if_neg hne, if_pos hfree]; rfl
  | case4 found place s t rest hne hfree hfound =>
    rw [conflict?, if_neg hne, if_neg hfree, Option.isSome_map, if_pos hfound]
    rfl
  | case5 found place s t rest hne hfree hfound ih =>
    rw [conflict?, if_neg hne, if_neg hfree, Option.isSome_map, if_neg hfound]
    exact ih

/-- After a difference was found, the rest has to agree. -/
theorem conflict?_some {k place : Nat} {ss ts : List Slot} (h : ss.length = ts.length) :
    conflict? (some k) place (ss.zip ts) = if ss = ts then some k else none := by
  induction ss generalizing ts place with
  | nil =>
    cases ts with
    | nil => rfl
    | cons t ts => cases h
  | cons s ss ih =>
    cases ts with
    | nil => cases h
    | cons t ts =>
      rw [List.zip_cons_cons, conflict?]
      by_cases hst : s = t
      · rw [if_pos hst, ih (Nat.succ.inj h), hst]
        simp
      · rw [if_neg hst]
        simp [hst]

/-- A difference is found at a place of the slots. -/
theorem lt_of_conflict? {found : Option Nat} {place k : Nat} {pairs : List (Slot × Slot)}
    (h : conflict? found place pairs = some k) (hfound : ∀ l, found = some l → l < place) :
    k < place + pairs.length := by
  fun_induction conflict? found place pairs with
  | case1 => exact hfound k h
  | case2 found place t rest ih =>
    have hk := ih h fun l hl => Nat.lt_succ_of_lt (hfound l hl)
    rw [List.length_cons]
    omega
  | case3 | case4 => cases h
  | case5 found place s t rest hne hfree hnone ih =>
    have hk := ih h fun l hl => Option.some.inj hl ▸ Nat.lt_succ_self place
    rw [List.length_cons]
    omega

/-- **Freeing the place where slots differ merges them.** -/
theorem map_set_conflict? {ss ts : List Slot} (h : ss.length = ts.length) :
    (conflict? none 0 (ss.zip ts)).map (fun k => ss.set k .free) = Pattern.mergeSlots? ss ts := by
  induction ss generalizing ts with
  | nil =>
    cases ts with
    | nil => rfl
    | cons t ts => cases h
  | cons s ss ih =>
    cases ts with
    | nil => cases h
    | cons t ts =>
      have hlength : ss.length = ts.length := Nat.succ.inj h
      rw [List.zip_cons_cons, conflict?]
      by_cases hst : s = t
      · subst hst
        have hshift : conflict? none 1 (ss.zip ts) = (conflict? none 0 (ss.zip ts)).map (· + 1) :=
          conflict?_add_one none 0 (ss.zip ts)
        have hkeep : Pattern.mergeSlots? (s :: ss) (s :: ts)
            = (Pattern.mergeSlots? ss ts).map (s :: ·) := by
          cases s <;> simp [Pattern.mergeSlots?]
        rw [if_pos rfl, hshift, Option.map_map, hkeep, ← ih hlength, Option.map_map]
        rfl
      · rw [if_neg hst]
        cases s with
        | free =>
          cases t with
          | free => exact absurd rfl hst
          | fixed v => rfl
        | fixed u =>
          cases t with
          | free => rfl
          | fixed v =>
            have huv : u ≠ v := fun e => hst (congrArg Slot.fixed e)
            have hrest : conflict? (some 0) 1 (ss.zip ts) = if ss = ts then some 0 else none :=
              conflict?_some hlength
            rw [if_neg (by simp), if_neg (by simp), hrest, Pattern.mergeSlots?, if_neg huv]
            split <;> rfl

/-- Freeing a cell of a position frees the position. -/
theorem free_store {k : Nat} (hk : k < p.width) (hq : q.slots = p.slots.set k .free) :
    { p.store with cells := p.store.cells.setIfInBounds k .free } = q.store := by
  have hw : q.width = p.width := by rw [Pattern.width, hq, List.length_set, Pattern.width]
  refine ext_toList ?_ hw.symm
  rw [Vector.toList_setIfInBounds, toList_store, toList_store, List.set_append_left k _ hk, hq, hw]

/-- **Stored patterns are merged as patterns are.** -/
theorem combine_store (p q : Pattern) :
    p.store.combine q.store = (p.combine q).map (Option.map Pattern.store) := by
  by_cases hw : p.width = q.width
  · have hslots : (conflict? none 0 (p.slots.zip q.slots)).map (fun k => p.slots.set k .free)
        = Pattern.mergeSlots? p.slots q.slots := map_set_conflict? hw
    have hmerge : (conflict? none 0 (p.slots.zip q.slots)).map
        (fun k => { p.store with cells := p.store.cells.setIfInBounds k .free })
        = (p.merge? q).map Pattern.store := by
      cases hk : conflict? none 0 (p.slots.zip q.slots) with
      | none =>
        rw [hk] at hslots
        have hnone : p.merge? q = none :=
          Option.eq_none_iff_forall_ne_some.mpr fun r hr => by
            cases hslots.trans (Pattern.merge?_eq_some_iff.mp hr)
        rw [hnone]
        rfl
      | some k =>
        rw [hk] at hslots
        have hlt := lt_of_conflict? hk (by simp)
        rw [List.length_zip, Nat.zero_add] at hlt
        have hlength : (p.slots.set k .free).length ≤ maxVariables := by
          rw [List.length_set]
          exact p.length_le
        have hr : p.merge? q = some ⟨p.slots.set k .free, hlength⟩ :=
          Pattern.merge?_eq_some_iff.mpr hslots.symm
        rw [hr]
        exact congrArg some (free_store (Nat.lt_min.mp hlt).1 rfl)
    rw [combine, Pattern.combine, if_pos hw, slots_store, slots_store, hmerge]
    exact if_pos hw
  · rw [combine, Pattern.combine, if_neg hw]
    exact if_neg hw

/-! ## 5. Reading into cells -/

/-- Characters are written over the cells from a place on, if each of them denotes a slot. -/
theorem write?_eq {cells : Vector Slot maxVariables} {cs : List Char} {before after : List Slot}
    (hcells : cells.toList = before ++ after) (hlength : cs.length ≤ after.length) :
    (write? cells before.length cs).map Vector.toList
      = (Slot.ofChars? cs).map fun ss => before ++ ss ++ after.drop ss.length := by
  induction cs generalizing cells before after with
  | nil => simp [write?, Slot.ofChars?, hcells]
  | cons c cs ih =>
    obtain _ | ⟨old, after⟩ := after
    · simp at hlength
    · rw [write?, Slot.ofChars?]
      cases hc : Slot.ofChar? c with
      | none => rfl
      | some s =>
        have hset : (cells.setIfInBounds before.length s).toList = (before ++ [s]) ++ after := by
          rw [Vector.toList_setIfInBounds, hcells]
          simp
        have hrest := ih hset (Nat.le_of_succ_le_succ hlength)
        rw [List.length_append, List.length_singleton] at hrest
        simp only [hrest]
        cases Slot.ofChars? cs <;> simp

theorem length_of_ofChars? {cs : List Char} {ss : List Slot} (h : Slot.ofChars? cs = some ss) :
    ss.length = cs.length := by
  rw [Slot.ofChars?_eq_some_iff.mp h, List.length_map]

/-- **Texts are read into cells as they are into lists of slots.** -/
theorem parse_eq (s : String) : parse s = (Pattern.parse s).map Pattern.store := by
  rw [parse, Pattern.parse]
  by_cases hlong : maxVariables < s.length
  · rw [if_pos hlong]
    cases hs : Slot.ofChars? s.toList with
    | none => rfl
    | some ss =>
      have hlength : ss.length = s.length := length_of_ofChars? hs
      simp only [dif_neg (Nat.not_le.mpr (hlength ▸ hlong))]
      rfl
  · have hle : s.length ≤ maxVariables := Nat.not_lt.mp hlong
    have hfree : (Vector.replicate maxVariables Slot.free).toList
        = [] ++ List.replicate maxVariables .free := Vector.toList_replicate
    have hroom : s.toList.length ≤ (List.replicate maxVariables Slot.free).length := by
      rw [List.length_replicate, String.length_toList]
      exact hle
    have hwrite := write?_eq hfree hroom
    rw [if_neg hlong, universal, dif_pos hle]
    cases hs : Slot.ofChars? s.toList with
    | none =>
      rw [hs] at hwrite
      have hnone : write? (Vector.replicate maxVariables .free) 0 s.toList = none :=
        Option.map_eq_none_iff.mp hwrite
      simp only [bind, Except.bind, hnone]
      rfl
    | some ss =>
      have hlength : ss.length = s.length := length_of_ofChars? hs
      have hss : ss.length ≤ maxVariables := hlength ▸ hle
      rw [hs] at hwrite
      obtain ⟨cells, hcells, htoList⟩ := Option.map_eq_some_iff.mp hwrite
      have hwritten : write? (Vector.replicate maxVariables .free) 0 s.toList = some cells := hcells
      simp only [bind, Except.bind, hwritten, dif_pos hss, Except.map]
      refine congrArg Except.ok (ext_toList ?_ hlength.symm)
      rw [htoList, toList_store]
      exact congrArg (ss ++ ·) List.drop_replicate

/-! ## 6. Texts and equality -/

/-- The stored patterns that are made by any sequence of operations. -/
inductive Built : StoredPattern → Prop where
  | universal {width : Nat} {x : StoredPattern} (h : StoredPattern.universal width = .ok x) :
    Built x
  | ofTerm {term width : Nat} {x : StoredPattern} (h : StoredPattern.ofTerm term width = .ok x) :
    Built x
  | parse {s : String} {x : StoredPattern} (h : StoredPattern.parse s = .ok x) : Built x
  | combine {x y z : StoredPattern} (hx : Built x) (hy : Built y)
    (h : x.combine y = .ok (some z)) : Built z

theorem exists_store_of_map {r : Except Error Pattern} (h : r.map Pattern.store = .ok x) :
    ∃ p : Pattern, x = p.store := by
  obtain ⟨p, -, rfl⟩ := map_eq_ok_iff.mp h
  exact ⟨p, rfl⟩

/-- **Whatever is made in cells is a pattern that is stored**, so the cells after its positions are
free.  By induction on how it is made. -/
theorem Built.exists_store (h : Built x) : ∃ p : Pattern, x = p.store := by
  induction h with
  | universal h => exact exists_store_of_map ((universal_eq _).symm.trans h)
  | ofTerm h => exact exists_store_of_map ((ofTerm_eq _ _).symm.trans h)
  | parse h => exact exists_store_of_map ((parse_eq _).symm.trans h)
  | combine _ _ h ihx ihy =>
    obtain ⟨p, rfl⟩ := ihx
    obtain ⟨q, rfl⟩ := ihy
    rw [combine_store, map_eq_ok_iff] at h
    obtain ⟨merged, -, h⟩ := h
    obtain ⟨r, -, rfl⟩ := Option.map_eq_some_iff.mp h
    exact ⟨r, rfl⟩

end StoredPattern

namespace Pattern

variable {s : String} {p q : Pattern}

theorem text_inj : p.text = q.text ↔ p = q := by
  refine ⟨fun h => ?_, congrArg _⟩
  have hparse := parse_text p
  rw [h, parse_text] at hparse
  exact (Except.ok.inj hparse).symm

/-- A character is that of a slot when it is one of three. -/
theorem exists_char_iff {c : Char} : (∃ t : Slot, c = t.char) ↔ c = '0' ∨ c = '1' ∨ c = '-' := by
  constructor
  · rintro ⟨(_ | _) | _, rfl⟩ <;> decide
  · rintro (rfl | rfl | rfl)
    · exact ⟨.fixed false, rfl⟩
    · exact ⟨.fixed true, rfl⟩
    · exact ⟨.free, rfl⟩

theorem exists_map_char_iff {cs : List Char} :
    (∃ ss : List Slot, cs = ss.map Slot.char) ↔ ∀ c ∈ cs, c = '0' ∨ c = '1' ∨ c = '-' := by
  simp only [← exists_char_iff]
  constructor
  · rintro ⟨ss, rfl⟩ c hc
    obtain ⟨t, -, rfl⟩ := List.mem_map.mp hc
    exact ⟨t, rfl⟩
  · intro h
    induction cs with
    | nil => exact ⟨[], rfl⟩
    | cons c cs ih =>
      obtain ⟨hc, hcs⟩ := List.forall_mem_cons.mp h
      obtain ⟨t, rfl⟩ := hc
      obtain ⟨ss, rfl⟩ := ih hcs
      exact ⟨t :: ss, rfl⟩

/-- **The texts of patterns** are those of not too many characters, each of them one of three. -/
theorem exists_parse_iff :
    (∃ p, parse s = .ok p) ↔
      s.length ≤ maxVariables ∧ ∀ c ∈ s.toList, c = '0' ∨ c = '1' ∨ c = '-' := by
  simp only [parse_eq_ok_iff, ← exists_map_char_iff]
  constructor
  · rintro ⟨p, rfl⟩
    have hlength : p.text.length = p.slots.length := by simp [text]
    exact ⟨hlength ▸ p.length_le, p.slots, String.toList_ofList⟩
  · rintro ⟨hlength, ss, hss⟩
    have hle : ss.length ≤ maxVariables := by
      rwa [← String.length_toList, hss, List.length_map] at hlength
    exact ⟨⟨ss, hle⟩, String.toList_inj.mp (hss.trans String.toList_ofList.symm)⟩

/-- There is one way to fail. -/
theorem parse_eq_error (h : ¬ ∃ p, parse s = .ok p) : parse s = .error (.invalidPattern s) := by
  cases hs : parse s with
  | ok p => exact absurd ⟨p, hs⟩ h
  | error e =>
    unfold parse at hs
    split at hs
    · split at hs
      · cases hs
      · exact hs.symm
    · exact hs.symm

end Pattern

namespace StoredPattern

/-- **Texts and equality of stored patterns.**  Making them, merging them and reading them gives
what is given for patterns, with free cells after the positions.  A text is read when it has not too
many characters, each of them `0`, `1` or `-`, and every other text is refused as such; what is read
has the text.  Two patterns that are made by any sequence of operations are equal, in all cells,
exactly when they have the same text, and from its text each of them is read back. -/
theorem text_spec :
    (∀ s, ((∃ x, parse s = .ok x) ↔
        s.length ≤ maxVariables ∧ ∀ c ∈ s.toList, c = '0' ∨ c = '1' ∨ c = '-') ∧
      ((¬ ∃ x, parse s = .ok x) → parse s = .error (.invalidPattern s)) ∧
      ∀ x, parse s = .ok x → x.text = s) ∧
    (∀ x y, Built x → Built y → (x = y ↔ x.text = y.text) ∧ parse x.text = .ok x) ∧
    (∀ width, universal width = (Pattern.universal width).map Pattern.store) ∧
    (∀ term width, ofTerm term width = (Pattern.ofTerm term width).map Pattern.store) ∧
    (∀ s, parse s = (Pattern.parse s).map Pattern.store) ∧
    (∀ p q : Pattern, p.store.combine q.store = (p.combine q).map (Option.map Pattern.store)) ∧
    ∀ p q : Pattern, p.store.text = p.text ∧ (p.store = q.store ↔ p = q) := by
  have hexists : ∀ s, (∃ x, parse s = .ok x) ↔ ∃ p, Pattern.parse s = .ok p := fun s => by
    simp only [parse_eq, map_eq_ok_iff]
    exact ⟨fun ⟨_, p, hp, _⟩ => ⟨p, hp⟩, fun ⟨p, hp⟩ => ⟨_, p, hp, rfl⟩⟩
  refine ⟨fun s => ⟨(hexists s).trans Pattern.exists_parse_iff, fun h => ?_, fun x hx => ?_⟩,
    fun x y hx hy => ?_, universal_eq, ofTerm_eq, parse_eq, combine_store,
    fun p q => ⟨text_store p, store_inj⟩⟩
  · rw [parse_eq, Pattern.parse_eq_error (mt (hexists s).mpr h)]
    rfl
  · rw [parse_eq, map_eq_ok_iff] at hx
    obtain ⟨p, hp, rfl⟩ := hx
    rw [text_store, Pattern.parse_eq_ok_iff.mp hp]
  · obtain ⟨p, rfl⟩ := hx.exists_store
    obtain ⟨q, rfl⟩ := hy.exists_store
    rw [store_inj, text_store, text_store, Pattern.text_inj, parse_eq, Pattern.parse_text]
    exact ⟨Iff.rfl, rfl⟩

/-- A pattern merged from two rows is the one read from its text; a text with another character, one
that is too long and one with a character of several bytes are refused. -/
theorem text_spec_of_two_ways :
    ∃ row next x y, ofTerm 4 3 = .ok row ∧ ofTerm 5 3 = .ok next ∧
      row.combine next = .ok (some x) ∧ parse "10-" = .ok y ∧ Built x ∧ Built y ∧ x = y ∧
      parse x.text = .ok x ∧ parse "01x" = .error (.invalidPattern "01x") ∧
      parse "010101" = .error (.invalidPattern "010101") ∧
      parse "1é" = .error (.invalidPattern "1é") := by
  obtain ⟨row, hrow⟩ : ∃ row, ofTerm 4 3 = .ok row := ⟨_, rfl⟩
  obtain ⟨next, hnext⟩ : ∃ next, ofTerm 5 3 = .ok next := ⟨_, rfl⟩
  obtain ⟨x, hx, hxtext⟩ : ∃ x, row.combine next = .ok (some x) ∧ x.text = "10-" := by
    cases hrow
    cases hnext
    exact ⟨_, rfl, by decide⟩
  obtain ⟨y, hy⟩ : ∃ y, parse "10-" = .ok y := (text_spec.1 "10-").1.mpr ⟨by decide, by simp⟩
  have hxbuilt : Built x := .combine (.ofTerm hrow) (.ofTerm hnext) hx
  have hybuilt : Built y := .parse hy
  have hytext : y.text = "10-" := (text_spec.1 "10-").2.2 y hy
  obtain ⟨heq, hback⟩ := text_spec.2.1 x y hxbuilt hybuilt
  have hrefused : ∀ s : String,
      ¬ (s.length ≤ maxVariables ∧ ∀ c ∈ s.toList, c = '0' ∨ c = '1' ∨ c = '-') →
        parse s = .error (.invalidPattern s) :=
    fun s hs => (text_spec.1 s).2.1 (mt (text_spec.1 s).1.mp hs)
  exact ⟨row, next, x, y, hrow, hnext, hx, hy, hxbuilt, hybuilt,
    heq.mpr (hxtext.trans hytext.symm), hback, hrefused "01x" (by simp),
    hrefused "010101" fun h => absurd h.1 (by decide), hrefused "1é" (by simp)⟩

end StoredPattern
end TwoLevel
