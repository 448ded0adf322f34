/-
# Rows as assignments

An index is decoded to an assignment, and a pattern covers an index; both read the same bits, the
first variable being the most significant one.  The rows below the number of assignments are all the
assignments of the variables, each once.  A larger index is decoded by its lowest bits, but it is
covered by no pattern.

* `Assignment.ext_get?`: an assignment is what it gives to each name;
* `Assignment.ofPairs_of_perm`: values of distinct names may be given in any order;
* `Assignment.existsUnique_ofRow`: each assignment of the variables is one row;
* `Pattern.covers_iff_testBit`: a pattern covers an index when each fixed position is its bit;
* `Assignment.ofRow_spec`: rows, assignments and patterns together.
-/
import TwoLevel.Proofs.TableExtension

namespace TwoLevel

/-! ## 1. Assignments by what they give to names -/

namespace Assignment

variable {a b : Assignment} {entries pairs : List (Char × Bool)} {c : Char} {value : Bool}

/-- Where no name has two entries, a name has the value of its entry. -/
theorem lookup_eq_some_iff_mem (h : (entries.map Prod.fst).Nodup) :
    entries.lookup c = some value ↔ (c, value) ∈ entries := by
  induction entries with
  | nil => simp
  | cons e entries ih =>
    obtain ⟨name, v⟩ := e
    obtain ⟨hname, hentries⟩ := List.nodup_cons.mp h
    rw [lookup_cons_eq_ite, List.mem_cons, Prod.mk.injEq]
    by_cases hc : c = name
    · have hno : (c, value) ∉ entries := fun hmem => hname (List.mem_map.mpr ⟨_, hmem, hc⟩)
      simp [hc, hc ▸ hno, eq_comm]
    · simp [hc, ih hentries]

theorem nodup_names (a : Assignment) : a.names.Nodup := by
  refine a.pairwise.imp fun {c d} hlt => ?_
  rintro rfl
  exact Char.lt_irrefl c hlt

theorem get?_eq_some_iff : a.get? c = some value ↔ (c, value) ∈ a.entries :=
  lookup_eq_some_iff_mem a.nodup_names

/-- **An assignment is what it gives to each name.** -/
theorem ext_get? (h : ∀ c, a.get? c = b.get? c) : a = b := by
  have hsorted : ∀ d : Assignment, d.entries.Pairwise (·.1 < ·.1) := fun d =>
    List.pairwise_map.mp d.pairwise
  refine ext_entries
    (eq_of_pairwise_of_mem_iff (fun p q => Char.lt_asymm) (hsorted a) (hsorted b) ?_)
  rintro ⟨c, value⟩
  rw [← get?_eq_some_iff, ← get?_eq_some_iff, h]

/-- Of several values of one name, the last one counts. -/
theorem get?_ofPairs (pairs : List (Char × Bool)) (c : Char) :
    (ofPairs pairs).get? c = pairs.reverse.lookup c := by
  have hfold : ∀ a : Assignment, (pairs.foldl (fun a p => a.set p.1 p.2) a).get? c
      = (pairs.reverse.lookup c).or (a.get? c) := by
    induction pairs with
    | nil => simp
    | cons p pairs ih =>
      intro a
      rw [List.foldl_cons, ih, get?_set, List.reverse_cons, List.lookup_append, Option.or_assoc,
        lookup_cons_eq_ite]
      by_cases hc : c = p.1 <;> simp [hc]
  rw [ofPairs, hfold]
  exact Option.or_none

/-- **The values of an assignment may be given in any order.** -/
theorem ofPairs_of_perm (h : pairs.Perm a.entries) : ofPairs pairs = a := by
  have hnodup : (pairs.reverse.map Prod.fst).Nodup := by
    rw [List.map_reverse, List.nodup_reverse]
    exact (h.map Prod.fst).nodup_iff.mpr a.nodup_names
  refine ext_get? fun c => Option.ext fun value => ?_
  rw [get?_ofPairs, lookup_eq_some_iff_mem hnodup, List.mem_reverse, h.mem_iff, get?_eq_some_iff]

/-- The names with a value are those of some variables. -/
def IsTotal (vs : Variables) (a : Assignment) : Prop :=
  ∀ c, (∃ value, a.get? c = some value) ↔ c ∈ vs

variable {vs : Variables}

theorem names_of_isTotal (h : a.IsTotal vs) : a.names = vs.toList := by
  refine eq_of_pairwise_of_mem_iff (fun _ _ => Char.lt_asymm) a.pairwise vs.pairwise fun c => ?_
  rw [← Ascending.mem_def, ← h c]
  simp [names, get?_eq_some_iff]

/-! ## 2. Rows -/

/-- A row lists the variables in order, each with its bit. -/
theorem entries_ofRow (vs : Variables) (index : Nat) :
    (ofRow vs index).entries
      = vs.toList.zipIdx.map fun (name, j) => (name, index.testBit (vs.size - 1 - j)) := by
  refine List.ext_getElem? fun j => ?_
  rw [List.getElem?_map, List.getElem?_zipIdx]
  rcases Nat.lt_or_ge j vs.size with hj | hj
  · have hname : vs.toList[j]? = some vs.toList[j] := List.getElem?_eq_getElem hj
    have hbit : (RowIndex.bits vs.size index)[j]? = some (index.testBit (vs.size - 1 - j)) :=
      RowIndex.getElem?_bits hj
    rw [hname, Option.map_some, Option.map_some, Nat.zero_add]
    exact List.getElem?_zip_eq_some.mpr ⟨hname, hbit⟩
  · have hname : vs.toList[j]? = none := List.getElem?_eq_none hj
    have hentry : (ofRow vs index).entries[j]? = none :=
      List.getElem?_eq_none (Nat.le_trans (by simp [ofRow, Ascending.size]) hj)
    rw [hname, hentry]
    rfl

theorem get?_ofRow_of_get? {index j : Nat} (h : vs.get? j = some c) :
    (ofRow vs index).get? c = some (index.testBit (vs.size - 1 - j)) := by
  rw [get?_eq_some_iff, entries_ofRow]
  exact List.mem_map.mpr ⟨(c, j), List.mem_zipIdx_iff_getElem?.mpr h, rfl⟩

/-- **Each assignment of the variables is one row.** -/
theorem existsUnique_ofRow (h : a.IsTotal vs) : ∃! i, i < 2 ^ vs.size ∧ ofRow vs i = a := by
  have hnames := names_of_isTotal h
  have hlt : RowIndex.ofBits a.values < vs.rowCount := by
    have hbits := RowIndex.ofBits_lt a.values
    rwa [length_values hnames] at hbits
  rw [← Variables.rowCount_eq]
  refine ⟨RowIndex.ofBits a.values, ⟨hlt, (eq_ofRow hnames).symm⟩, ?_⟩
  rintro i ⟨hi, hrow⟩
  exact ofRow_inj hi hlt (hrow.trans (eq_ofRow hnames))

/-- Only the lowest bits of an index count. -/
theorem ofRow_mod (vs : Variables) (index : Nat) :
    ofRow vs (index % 2 ^ vs.size) = ofRow vs index := by
  refine ext_entries ?_
  rw [← RowIndex.count_eq]
  exact congrArg vs.toList.zip (RowIndex.bits_mod vs.size index)

end Assignment

/-! ## 3. Patterns -/

namespace Pattern

variable {p : Pattern} {i : Nat}

/-- **A pattern covers an index when each fixed position is its bit.** -/
theorem covers_iff_testBit (hi : i < RowIndex.count p.width) :
    p.covers i = true ↔
      ∀ j value, p.slots[j]? = some (.fixed value) → i.testBit (p.width - 1 - j) = value := by
  have hlt : ∀ {j s}, p.slots[j]? = some s → j < p.width := fun hslot =>
    (List.getElem?_eq_some_iff.mp hslot).1
  simp only [covers, decide_eq_true hi, Bool.true_and, List.all_eq_true]
  constructor
  · intro h j value hslot
    have hpair : (p.slots.zip (RowIndex.bits p.width i))[j]?
        = some (.fixed value, i.testBit (p.width - 1 - j)) :=
      List.getElem?_zip_eq_some.mpr ⟨hslot, RowIndex.getElem?_bits (hlt hslot)⟩
    exact (of_decide_eq_true (h _ (List.mem_of_getElem? hpair))).symm
  · rintro h ⟨s, b⟩ hpair
    obtain ⟨j, hj⟩ := List.mem_iff_getElem?.mp hpair
    obtain ⟨hslot, hbit⟩ := List.getElem?_zip_eq_some.mp hj
    cases s with
    | free => rfl
    | fixed value =>
      have hvalue := h j value hslot
      rw [RowIndex.getElem?_bits (hlt hslot), hvalue] at hbit
      exact decide_eq_true (Option.some.inj hbit)

end Pattern

/-! ## 4. Rows, assignments and patterns -/

namespace Assignment

/-- **Rows as assignments.**  A row gives values to the variables and to no other name; it lists
them in order, the value of the `j`-th of `n` variables being the bit `n - 1 - j` of the index, and
it is the assignment that is made by giving these values in any order.  Each assignment of the
variables is the row of exactly one index below `2 ^ n`, and other indices count modulo `2 ^ n`.

A pattern over the variables covers an index below `2 ^ n` exactly when the row gives to the
variable of each fixed position the value that is fixed there, and it covers no other index. -/
theorem ofRow_spec (vs : Variables) :
    (∀ index, (ofRow vs index).IsTotal vs ∧
      (ofRow vs index).entries
        = vs.toList.zipIdx.map (fun (name, j) => (name, index.testBit (vs.size - 1 - j))) ∧
      (∀ j name, vs.get? j = some name →
        (ofRow vs index).get? name = some (index.testBit (vs.size - 1 - j))) ∧
      ∀ pairs : List (Char × Bool), pairs.Perm (ofRow vs index).entries →
        ofPairs pairs = ofRow vs index) ∧
    (∀ a : Assignment, a.IsTotal vs → ∃! i, i < 2 ^ vs.size ∧ ofRow vs i = a) ∧
    (∀ index, ofRow vs index = ofRow vs (index % 2 ^ vs.size)) ∧
    (∀ p : Pattern, p.width = vs.size → ∀ i,
      (i < 2 ^ vs.size →
        (p.covers i = true ↔ ∀ j value, p.slots[j]? = some (.fixed value) →
          ∃ name, vs.get? j = some name ∧ (ofRow vs i).get? name = some value)) ∧
      (2 ^ vs.size ≤ i → p.covers i = false)) := by
  refine ⟨fun index => ⟨fun c => ?_, entries_ofRow vs index, fun j name => get?_ofRow_of_get?,
    fun pairs => ofPairs_of_perm⟩, fun a => existsUnique_ofRow,
    fun index => (ofRow_mod vs index).symm, fun p hp i => ⟨fun hi => ?_, fun hi => ?_⟩⟩
  · constructor
    · rintro ⟨value, hvalue⟩
      refine Classical.byContradiction fun hc => ?_
      rw [get?_ofRow_of_notMem hc] at hvalue
      cases hvalue
    · exact fun hc => ⟨_, get?_ofRow hc⟩
  · rw [← RowIndex.count_eq, ← hp] at hi
    rw [Pattern.covers_iff_testBit hi, hp]
    refine forall_congr' fun j => forall_congr' fun value => imp_congr_right fun hslot => ?_
    have hj : j < vs.toList.length := Nat.lt_of_lt_of_eq (List.getElem?_eq_some_iff.mp hslot).1 hp
    have hname : vs.get? j = some vs.toList[j] := List.getElem?_eq_getElem hj
    simp [hname, get?_ofRow_of_get? hname]
  · rw [← RowIndex.count_eq, ← hp] at hi
    exact Bool.eq_false_iff.mpr fun hcovers => Nat.not_le.mpr (Pattern.lt_of_covers hcovers) hi

/-- Three variables, two of them not ASCII: the row 6 has the first two set, and so has 14; the
pattern `1-0` covers 6 and not 14. -/
theorem ofRow_spec_of_three_letters :
    let vs := Variables.ofNames ['λ', 'a', 'é']
    (ofRow vs 6).entries = [('a', true), ('é', true), ('λ', false)] ∧ ofRow vs 14 = ofRow vs 6 ∧
      ofPairs [('é', true), ('λ', false), ('a', true)] = ofRow vs 6 ∧
      (∃! i, i < 2 ^ vs.size ∧ ofRow vs i = ofRow vs 6) ∧
      ∃ p, Pattern.parse "1-0" = .ok p ∧ p.covers 6 = true ∧ p.covers 14 = false := by
  intro vs
  obtain ⟨hrows, hunique, hmod, hpattern⟩ := ofRow_spec vs
  obtain ⟨htotal, hentries, -, hperm⟩ := hrows 6
  have hsix : (ofRow vs 6).entries = [('a', true), ('é', true), ('λ', false)] :=
    hentries.trans (by decide)
  obtain ⟨p, hp⟩ : ∃ p : Pattern, p.slots = [.fixed true, .free, .fixed false] :=
    ⟨⟨[.fixed true, .free, .fixed false], by decide⟩, rfl⟩
  have htext : p.text = "1-0" := by rw [Pattern.text, hp]; decide
  have hwidth : p.width = vs.size := by rw [Pattern.width, hp]; decide
  refine ⟨hsix, (hmod 14).trans (by decide), hperm _ (hsix ▸ by decide), hunique _ htotal, p,
    htext ▸ Pattern.parse_text p, ((hpattern p hwidth 6).1 (by decide)).mpr ?_,
    (hpattern p hwidth 14).2 (by decide)⟩
  intro j value hslot
  rw [hp] at hslot
  rcases j with _ | _ | _ | j
  · exact ⟨'a', by decide, by cases hslot; decide⟩
  · cases hslot
  · exact ⟨'λ', by decide, by cases hslot; decide⟩
  · cases hslot

end Assignment
end TwoLevel
