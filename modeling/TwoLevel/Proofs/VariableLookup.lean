/-
# Lists of variables and places in them

The variables among some names are found by sorting the names and dropping the repetitions, which
are neighbours then.  The order has two uses: the list depends on the set of names only, and the
place of a name can be found by halving.  The variables of an expression are taken from its tokens
in front of the conversion to postfix order, which neither loses nor adds a variable.

* `mem_destutter_ne`, `Variables.pairwise_lt_destutter`: repetitions dropped from sorted names;
* `Variables.toList_ofNames`: the variables are the sorted names without repetitions;
* `Variables.onlyPlace_eq`, `Variables.halve?_eq_some_iff`: halving finds each name where it is;
* `Variables.position?_eq_some_iff`: names and their places determine each other;
* `Expression.mem_vars_iff`: the variables of an expression are those of its postfix order;
* `Variables.lookup_spec`: all of it, for any names and any source.
-/
import Mathlib.Data.List.Destutter
import TwoLevel.Proofs.Conversion
import TwoLevel.Proofs.TableValues

namespace TwoLevel

/-! ## 1. Sorted names without repetitions -/

section Destutter

variable {α : Type} [DecidableEq α] {x : α} {xs : List α}

theorem mem_destutter'_ne {a : α} : x ∈ xs.destutter' (· ≠ ·) a ↔ x = a ∨ x ∈ xs := by
  induction xs generalizing a with
  | nil => simp
  | cons b xs ih =>
    by_cases hab : a = b
    · subst hab
      rw [List.destutter'_cons_neg _ (not_not_intro rfl), ih, List.mem_cons, or_self_left]
    · rw [List.destutter'_cons_pos _ hab, List.mem_cons, ih, List.mem_cons]

/-- Only repetitions are dropped. -/
theorem mem_destutter_ne : x ∈ xs.destutter (· ≠ ·) ↔ x ∈ xs := by
  cases xs with
  | nil => rfl
  | cons a xs => rw [List.destutter_cons', mem_destutter'_ne, List.mem_cons]

end Destutter

namespace Variables

variable {names : List Char}

/-- In a sorted list the repetitions are neighbours, so that none is left. -/
theorem pairwise_lt_destutter (h : names.Pairwise (· ≤ ·)) :
    (names.destutter (· ≠ ·)).Pairwise (· < ·) := by
  have hle : (names.destutter (· ≠ ·)).Pairwise (· ≤ ·) := h.sublist (List.destutter_sublist _ _)
  have hne := List.isChain_iff_getElem.mp (List.isChain_destutter (· ≠ ·) names)
  have hlt : (names.destutter (· ≠ ·)).IsChain (· < ·) := by
    refine List.isChain_iff_getElem.mpr fun i hi => ?_
    have hi_le := List.pairwise_iff_getElem.mp hle i (i + 1) (by omega) hi (Nat.lt_succ_self i)
    exact Std.lt_of_le_of_ne hi_le (hne i hi)
  exact List.isChain_iff_pairwise.mp hlt

/-- **The variables among names are the sorted names without repetitions.** -/
theorem toList_ofNames (names : List Char) :
    (ofNames names).toList = names.mergeSort.destutter (· ≠ ·) := by
  have hsorted : names.mergeSort.Pairwise (· ≤ ·) := by
    have h : names.mergeSort.Pairwise fun a b => decide (a ≤ b) = true :=
      List.pairwise_mergeSort (fun _ _ _ => by simpa using Char.le_trans)
        (fun a b => by simpa using Char.le_total a b) names
    simpa using h
  refine eq_of_pairwise_of_mem_iff (fun _ _ => Char.lt_asymm) (ofNames names).pairwise
    (pairwise_lt_destutter hsorted) fun c => ?_
  rw [mem_destutter_ne, List.mem_mergeSort]
  exact mem_ofNames

/-- The order and the repetitions of names do not count. -/
theorem ofNames_eq_iff {others : List Char} :
    ofNames others = ofNames names ↔ ∀ c, c ∈ others ↔ c ∈ names := by
  constructor
  · intro h c
    rw [← mem_ofNames, h, mem_ofNames]
  · intro h
    refine Ascending.ext_mem fun c => ?_
    rw [mem_ofNames, mem_ofNames, h]

/-! ## 2. The place of a name by halving -/

variable {vs : Variables} {c d : Char} {i j base count : Nat}

/-- The only place where a name can be, out of so many places from one on: while there are several,
those are left out that the name in the middle excludes. -/
def onlyPlace (vs : Variables) (c : Char) (base count : Nat) : Nat :=
  if count ≤ 1 then base
  else
    let middle := base + count / 2
    if (vs.get? middle).any (c < ·) then onlyPlace vs c base (count - count / 2)
    else onlyPlace vs c middle (count - count / 2)
termination_by count

/-- The place that halving leaves, if the name is there. -/
def halve? (vs : Variables) (c : Char) : Option Nat :=
  let place := onlyPlace vs c 0 vs.size
  if vs.get? place = some c then some place else none

theorem lt_of_get? (hi : vs.get? i = some c) (hj : vs.get? j = some d) (h : i < j) : c < d := by
  obtain ⟨hil, rfl⟩ := List.getElem?_eq_some_iff.mp hi
  obtain ⟨hjl, rfl⟩ := List.getElem?_eq_some_iff.mp hj
  exact List.pairwise_iff_getElem.mp vs.pairwise i j hil hjl h

/-- Names have the order of their places. -/
theorem lt_iff_of_get? (hi : vs.get? i = some c) (hj : vs.get? j = some d) : c < d ↔ i < j := by
  refine ⟨fun h => Nat.lt_of_not_le fun hji => ?_, lt_of_get? hi hj⟩
  rcases Nat.eq_or_lt_of_le hji with rfl | hji
  · have hcd : c = d := Option.some.inj (hi.symm.trans hj)
    exact Char.lt_irrefl d (hcd ▸ h)
  · exact Char.lt_asymm h (lt_of_get? hj hi hji)

/-- **Halving ends at the place of a name** that is among the places it starts with. -/
theorem onlyPlace_eq (hi : vs.get? i = some c) (hbase : base ≤ i) (hcount : i < base + count)
    (hsize : base + count ≤ vs.size) : onlyPlace vs c base count = i := by
  -- the name in the middle is greater exactly when the place is in front of the middle
  have hgreater : ∀ {m}, m < vs.size → ((vs.get? m).any (c < ·) = true ↔ i < m) := by
    intro m hm
    have hget : vs.get? m = some vs.toList[m] := List.getElem?_eq_getElem hm
    rw [hget, Option.any_some, decide_eq_true_iff]
    exact lt_iff_of_get? hi hget
  fun_induction onlyPlace vs c base count with
  | case1 base count hone => omega
  | case2 base count hmany middle hlt ih =>
    have hmiddle : middle = base + count / 2 := rfl
    have him := (hgreater (by omega)).mp hlt
    exact ih hbase (by omega) (by omega)
  | case3 base count hmany middle hlt ih =>
    have hmiddle : middle = base + count / 2 := rfl
    have him := mt (hgreater (by omega)).mpr hlt
    exact ih (by omega) (by omega) (by omega)

/-- **Halving finds each name where it is**, and nothing else. -/
theorem halve?_eq_some_iff : vs.halve? c = some i ↔ vs.get? i = some c := by
  rw [halve?]
  constructor
  · intro h
    split at h
    · next hc =>
      cases h
      exact hc
    · cases h
  · intro hi
    have hlt : i < vs.size := (List.getElem?_eq_some_iff.mp hi).1
    have hplace : onlyPlace vs c 0 vs.size = i :=
      onlyPlace_eq hi (Nat.zero_le i) (by omega) (by omega)
    rw [hplace, if_pos hi]

/-- **Names and their places determine each other.** -/
theorem position?_eq_some_iff : vs.position? c = some i ↔ vs.get? i = some c := by
  rw [position?, List.idxOf?_eq_some_iff, get?, List.getElem?_eq_some_iff]
  refine exists_congr fun hi => and_iff_left_of_imp ?_
  rintro rfl j hj hc
  exact absurd (vs.nodup.getElem_inj_iff.mp hc) (Nat.ne_of_lt hj)

theorem position?_eq_none_iff : vs.position? c = none ↔ c ∉ vs :=
  List.idxOf?_eq_none_iff

theorem halve?_eq_position? (vs : Variables) (c : Char) : vs.halve? c = vs.position? c :=
  Option.ext fun _ => halve?_eq_some_iff.trans position?_eq_some_iff.symm

end Variables

/-! ## 3. The variables of an expression -/

namespace Expression

variable {source : String} {e : Expression} {c : Char}

/-- The conversion to postfix order keeps the variables. -/
theorem vars_eq (h : parse source = .ok e) : e.vars = Variables.ofTokens e.tokens := by
  obtain ⟨ordered, ho, rfl⟩ := parse_eq_ok_iff.mp h
  have hnames : ordered.filterMap Token.name? = (Token.ofText source).filterMap Token.name? :=
    Postfix.filterMap_name?_of_convert ho
  exact congrArg Variables.ofNames hnames.symm

/-- **The variables of an expression are those of its postfix order.** -/
theorem mem_vars_iff (h : parse source = .ok e) : c ∈ e.vars ↔ Token.var c ∈ e.tokens := by
  rw [vars_eq h, Variables.mem_ofTokens]

end Expression

/-! ## 4. The whole -/

namespace Variables

/-- **The variables among names are their sorted list without repetitions**, which any other names
of the same set have too.  Each of them is found by halving at the one place where it is, and
nothing else is found.  **An expression has the variables of its postfix order**, which are those
of its text. -/
theorem lookup_spec :
    (∀ names : List Char,
      (ofNames names).toList = names.mergeSort.destutter (· ≠ ·) ∧
      (ofNames names).toList.Pairwise (· < ·) ∧
      (∀ c, c ∈ (ofNames names).toList ↔ c ∈ names) ∧
      (∀ others, ofNames others = ofNames names ↔ ∀ c, c ∈ others ↔ c ∈ names) ∧
      ∀ c, (ofNames names).position? c = (ofNames names).halve? c ∧
        (∀ i, (ofNames names).position? c = some i ↔ (ofNames names).get? i = some c) ∧
        ((ofNames names).position? c = none ↔ c ∉ names)) ∧
    ∀ source e, Expression.parse source = .ok e →
      e.vars = ofTokens e.tokens ∧ (∀ c, c ∈ e.vars.toList ↔ Token.var c ∈ e.tokens) ∧
        e.vars = ofText source := by
  constructor
  · intro names
    refine ⟨toList_ofNames names, (ofNames names).pairwise, fun c => mem_ofNames,
      fun others => ofNames_eq_iff, fun c => ⟨(halve?_eq_position? _ c).symm, fun i => ?_, ?_⟩⟩
    · exact position?_eq_some_iff
    · exact position?_eq_none_iff.trans (not_congr mem_ofNames)
  · intro source e h
    refine ⟨Expression.vars_eq h, fun c => Expression.mem_vars_iff h, ?_⟩
    obtain ⟨ordered, -, rfl⟩ := Expression.parse_eq_ok_iff.mp h
    rfl

/-- Names in no order, of which two are there twice, and an expression that repeats a variable. -/
theorem lookup_spec_of_repeated_names :
    (ofNames ['λ', 'b', 'a', 'b', 'λ']).halve? 'λ' = some 2 ∧
    (ofNames ['b', 'λ', 'a']).toList = ['λ', 'b', 'a', 'b', 'λ'].mergeSort.destutter (· ≠ ·) ∧
    ∃ e, Expression.parse "( c | a ) & ! c -> b" = .ok e ∧ e.vars = ofTokens e.tokens ∧
      e.vars.toList = ['a', 'b', 'c'] := by
  obtain ⟨hsorted, -, -, hset, hplace⟩ := lookup_spec.1 ['λ', 'b', 'a', 'b', 'λ']
  refine ⟨?_, ?_, ?_⟩
  · rw [← (hplace 'λ').1]
    decide
  · rw [(hset ['b', 'λ', 'a']).mpr fun c => by simp [or_comm, or_left_comm]]
    exact hsorted
  · have hparse : Expression.parse "( c | a ) & ! c -> b" = .ok ⟨"( c | a ) & ! c -> b",
        ofText "( c | a ) & ! c -> b",
        [.var 'c', .var 'a', .op .or, .var 'c', .op .not, .op .and, .var 'b', .op .implies]⟩ := by
      decide
    exact ⟨_, hparse, (lookup_spec.2 _ _ hparse).1, by decide⟩

end Variables
end TwoLevel
