/-
# The function of a truth table

A table gives a value for each choice of values of its variables: the one at the index whose
bits are the chosen values.  It is the value of the expression that the table was made of,
under every assignment that makes this choice.

* `Assignment.get?_ofRow_ofBits`: the row of an index gives the bits of the index to the names;
* `Postfix.evaluate_congr`: the value depends on the variables that occur;
* `TruthTable.eval_eq_value`: an expression has the value that its table gives;
* `TruthTable.mem_terms_iff`: the terms of a form are the rows where the function has its target.
-/
import Mathlib.Algebra.Group.Nat.Defs
import TwoLevel.Proofs.Cube
import TwoLevel.TruthTable

namespace TwoLevel

/-! ## 1. The row of an index -/

namespace Assignment

variable {a : Assignment} {vs : Variables}

/-- The value of a name, or false for a name without one. -/
def value (a : Assignment) (name : Char) : Bool := (a.get? name).getD false

theorem lookup_zip {names : List Char} {bs : List Bool} (hn : names.Pairwise (· < ·))
    (hl : names.length = bs.length) :
    names.map (fun c => (names.zip bs).lookup c) = bs.map some := by
  induction names generalizing bs with
  | nil =>
    rw [List.eq_nil_of_length_eq_zero hl.symm]
    rfl
  | cons n ns ih =>
    cases bs with
    | nil => cases hl
    | cons b bs =>
      obtain ⟨hlt, hns⟩ := List.pairwise_cons.mp hn
      have hrest : ns.map (fun c => ((n :: ns).zip (b :: bs)).lookup c)
          = ns.map fun c => (ns.zip bs).lookup c := by
        refine List.map_congr_left fun c hc => ?_
        have hne : c ≠ n := fun e => Char.lt_irrefl n (e ▸ hlt c hc)
        rw [List.zip_cons_cons, lookup_cons_eq_ite, if_neg hne]
      have hfirst : ((n :: ns).zip (b :: bs)).lookup n = some b := by
        rw [List.zip_cons_cons, lookup_cons_eq_ite, if_pos rfl]
      rw [List.map_cons, List.map_cons, hrest, hfirst, ih hns (Nat.succ.inj hl)]

theorem map_get?_ofRow (vs : Variables) (index : Nat) :
    vs.toList.map (ofRow vs index).get? = (RowIndex.bits vs.size index).map some :=
  lookup_zip vs.pairwise (by simp [Ascending.size])

theorem map_value_ofRow (vs : Variables) (index : Nat) :
    vs.toList.map (ofRow vs index).value = RowIndex.bits vs.size index := by
  have h := congrArg (List.map (Option.getD · false)) (map_get?_ofRow vs index)
  rw [List.map_map, List.map_map] at h
  exact h.trans (List.map_id _)

/-- Each variable has a value on a row. -/
theorem get?_ofRow {index : Nat} {c : Char} (hc : c ∈ vs) :
    (ofRow vs index).get? c = some ((ofRow vs index).value c) := by
  have hmem : (ofRow vs index).get? c ∈ (RowIndex.bits vs.size index).map some :=
    map_get?_ofRow vs index ▸ List.mem_map.mpr ⟨c, hc, rfl⟩
  obtain ⟨b, -, hb⟩ := List.mem_map.mp hmem
  rw [value, ← hb]
  rfl

/-- The row of the index with given bits has them as values. -/
theorem get?_ofRow_ofBits {v : Char → Bool} {c : Char} (hc : c ∈ vs) :
    (ofRow vs (RowIndex.ofBits (vs.toList.map v))).get? c = some (v c) := by
  have hbits := RowIndex.bits_ofBits (vs.toList.map v)
  have hmap := map_value_ofRow vs (RowIndex.ofBits (vs.toList.map v))
  rw [List.length_map] at hbits
  rw [Ascending.size, hbits] at hmap
  rw [get?_ofRow hc, List.map_inj_left.mp hmap c hc]

end Assignment

/-! ## 2. Values depend on the variables that occur -/

namespace Postfix

theorem run_congr {a b : Assignment} {tokens : List Token}
    (h : ∀ c, Token.var c ∈ tokens → a.get? c = b.get? c) (stack : List Bool) :
    run a stack tokens = run b stack tokens := by
  induction tokens generalizing stack with
  | nil => rfl
  | cons t ts ih =>
    have hstep : step a stack t = step b stack t := by
      cases t with
      | var c => rw [step, step, h c (by simp)]
      | op o | leftParen | rightParen | unknown w => rfl
    have hts : ∀ c, Token.var c ∈ ts → a.get? c = b.get? c :=
      fun c hc => h c (List.mem_cons_of_mem t hc)
    rw [run, run, hstep]
    cases step b stack t with
    | ok next => exact ih hts next
    | error e => rfl

/-- The value depends on the variables that occur. -/
theorem evaluate_congr {a b : Assignment} {tokens : List Token}
    (h : ∀ c, Token.var c ∈ tokens → a.get? c = b.get? c) :
    evaluate a tokens = evaluate b tokens := by
  rw [evaluate, evaluate, run_congr h]

/-- The conversion adds no variables. -/
theorem var_mem_of_convert {stack : List Waiting} {ts out : List Token} {c : Char}
    (h : convert stack ts = .ok out) (hc : Token.var c ∈ out) : Token.var c ∈ ts := by
  have hop : ∀ ops : List Operator, Token.var c ∉ ops.map Token.op := by simp
  induction ts generalizing stack out with
  | nil =>
    unfold convert at h
    split at h
    · cases h
      exact absurd hc (hop _)
    · cases h
  | cons t ts ih =>
    -- what goes out at a token is the token itself or operators that were waiting
    have hrest : ∀ {stack : List Waiting} (now : List Token),
        (convert stack ts).map (now ++ ·) = .ok out → (Token.var c ∈ now → Token.var c = t) →
        Token.var c ∈ t :: ts := by
      intro stack now hout hnow
      obtain ⟨rest, hts, rfl⟩ := map_eq_ok_iff.mp hout
      rcases List.mem_append.mp hc with hc | hc
      · simp [hnow hc]
      · exact List.mem_cons_of_mem t (ih hts hc)
    cases t with
    | var d => exact hrest [.var d] h (by simp)
    | op o => exact hrest _ h fun hmem => absurd hmem (hop _)
    | leftParen => exact List.mem_cons_of_mem _ (ih h hc)
    | rightParen =>
      unfold convert at h
      split at h
      · exact hrest _ h fun hmem => absurd hmem (hop _)
      · cases h
    | unknown w => cases h

end Postfix

namespace Expression

variable {source : String} {e : Expression} {c : Char}

theorem parse_eq_ok_iff :
    parse source = .ok e ↔ ∃ ordered, Postfix.ofInfix (Token.ofText source) = .ok ordered ∧
      e = ⟨source, Variables.ofText source, ordered⟩ := by
  cases h : Postfix.ofInfix (Token.ofText source) with
  | error fault => simp [parse, h]
  | ok ordered => simp [parse, h, eq_comm, Variables.ofText]

theorem var_mem_of_parse (h : parse source = .ok e) (hc : Token.var c ∈ e.tokens) :
    c ∈ e.vars := by
  obtain ⟨ordered, ho, rfl⟩ := parse_eq_ok_iff.mp h
  exact Variables.mem_ofTokens.mpr (Postfix.var_mem_of_convert ho hc)

/-- The variables of an expression have the names of variables. -/
theorem isVariable_of_parse (h : parse source = .ok e) (hc : c ∈ e.vars) :
    Token.isVariable c = true := by
  obtain ⟨ordered, -, rfl⟩ := parse_eq_ok_iff.mp h
  have hmem : Token.var c ∈ Token.ofText source := Variables.mem_ofTokens.mp hc
  obtain ⟨word, -, hword⟩ := List.mem_map.mp hmem
  unfold Token.ofWord at hword
  have hsymbol : Token.ofSymbol word ≠ .var c := by
    unfold Token.ofSymbol
    split
    · exact Token.noConfusion
    · split
      · exact Token.noConfusion
      · split <;> exact Token.noConfusion
  split at hword
  · split at hword
    · next d _ hd =>
      cases hword
      exact hd
    · exact absurd hword hsymbol
  · exact absurd hword hsymbol

end Expression

/-! ## 3. The function of a table -/

theorem RowIndex.count_eq (width : Nat) : count width = 2 ^ width :=
  Nat.one_shiftLeft width

theorem Variables.rowCount_eq (vs : Variables) : vs.rowCount = 2 ^ vs.size :=
  RowIndex.count_eq vs.size

namespace TruthTable

variable {t u : TruthTable} {form : NormalForm}

/-- The value that a table gives for values of the variables. -/
def value (t : TruthTable) (v : Char → Bool) : Bool :=
  t.values.getD (RowIndex.ofBits (t.vars.toList.map v)) false

theorem getElem?_values (t : TruthTable) (v : Char → Bool) :
    t.values[RowIndex.ofBits (t.vars.toList.map v)]? = some (t.value v) := by
  have hlt : RowIndex.ofBits (t.vars.toList.map v) < t.values.length := by
    have h := RowIndex.ofBits_lt (t.vars.toList.map v)
    rw [List.length_map] at h
    exact t.length_values ▸ h
  rw [value, List.getD_eq_getElem?_getD, List.getElem?_eq_getElem hlt]
  rfl

/-- Each row is a choice of values. -/
theorem exists_row {i : Nat} (vs : Variables) (h : i < vs.rowCount) :
    ∃ v : Char → Bool, RowIndex.ofBits (vs.toList.map v) = i := by
  refine ⟨(Assignment.ofRow vs i).value, ?_⟩
  rw [Assignment.map_value_ofRow, RowIndex.ofBits_bits]
  exact Nat.mod_eq_of_lt h

theorem mem_values {b : Bool} : b ∈ t.values ↔ ∃ v, t.value v = b := by
  constructor
  · intro hb
    obtain ⟨i, hi⟩ := List.mem_iff_getElem?.mp hb
    obtain ⟨v, rfl⟩ := exists_row t.vars (t.length_values ▸ (List.getElem?_eq_some_iff.mp hi).1)
    exact ⟨v, Option.some.inj ((t.getElem?_values v).symm.trans hi)⟩
  · rintro ⟨v, rfl⟩
    exact List.mem_of_getElem? (t.getElem?_values v)

/-- A function is constant when all its rows have one value. -/
theorem exists_forall_value_iff :
    (∃ b, ∀ v, t.value v = b) ↔ ∃ b, ∀ x ∈ t.values, x = b := by
  refine exists_congr fun b => ⟨fun h x hx => ?_, fun h v => h _ (mem_values.mpr ⟨v, rfl⟩)⟩
  obtain ⟨v, rfl⟩ := mem_values.mp hx
  exact h v

/-- Tables of one function over the same variables are equal. -/
theorem ext_value (hvars : t.vars = u.vars) (hvalue : t.value = u.value) : t = u := by
  have hvalues : t.values = u.values := by
    refine List.ext_getElem? fun i => ?_
    rcases Nat.lt_or_ge i t.vars.rowCount with hi | hi
    · obtain ⟨v, rfl⟩ := exists_row t.vars hi
      rw [t.getElem?_values, hvars, u.getElem?_values, hvalue]
    · rw [List.getElem?_eq_none (t.length_values ▸ hi),
        List.getElem?_eq_none (u.length_values ▸ hvars ▸ hi)]
  cases t
  cases u
  cases hvars
  cases hvalues
  rfl

theorem ofExpressionOver_value {vs : Variables} {e : Expression}
    (h : ofExpressionOver vs e = .ok t) (v : Char → Bool) :
    e.eval (Assignment.ofRow vs (RowIndex.ofBits (vs.toList.map v))) = .ok (t.value v) := by
  obtain ⟨-, rfl, hrows⟩ := ofExpressionOver_eq_ok_iff.mp h
  have hlt : RowIndex.ofBits (t.vars.toList.map v) < t.vars.rowCount := by
    rw [← t.length_values]
    exact (List.getElem?_eq_some_iff.mp (t.getElem?_values v)).1
  have hrow := congrArg (·[RowIndex.ofBits (t.vars.toList.map v)]?) hrows
  simpa [hlt, t.getElem?_values v] using hrow

/-- **An expression has the value that its table gives**, under every assignment of its
variables. -/
theorem eval_eq_value {source : String} {e : Expression} {a : Assignment} {v : Char → Bool}
    (he : Expression.parse source = .ok e) (h : ofExpression e = .ok t)
    (ha : ∀ c ∈ e.vars, a.get? c = some (v c)) : e.eval a = .ok (t.value v) := by
  rw [← ofExpressionOver_value h v]
  refine Postfix.evaluate_congr fun c hc => ?_
  have hvar := Expression.var_mem_of_parse he hc
  rw [ha c hvar, Assignment.get?_ofRow_ofBits hvar]

/-! ## 4. The terms of a form -/

theorem mem_terms {i : Nat} : i ∈ t.terms form ↔ t.values[i]? = some form.target := by
  simp only [terms, List.mem_map, List.mem_filter, decide_eq_true_eq, Prod.exists,
    List.mem_zipIdx_iff_getElem?]
  constructor
  · rintro ⟨b, i, ⟨hi, rfl⟩, rfl⟩
    exact hi
  · exact fun h => ⟨_, i, ⟨h, rfl⟩, rfl⟩

/-- The terms of a form are the rows where the function has its target. -/
theorem mem_terms_iff {v : Char → Bool} :
    RowIndex.ofBits (t.vars.toList.map v) ∈ t.terms form ↔ t.value v = form.target := by
  rw [mem_terms, t.getElem?_values, Option.some.injEq]

theorem lt_of_mem_terms {i : Nat} (h : i ∈ t.terms form) : i < t.vars.rowCount := by
  rw [← t.length_values]
  exact (List.getElem?_eq_some_iff.mp (mem_terms.mp h)).1

theorem pairwise_terms (t : TruthTable) (form : NormalForm) :
    (t.terms form).Pairwise (· < ·) := by
  have hrows : (t.values.zipIdx.map Prod.snd).Pairwise (· < ·) := by
    rw [List.zipIdx_map_snd]
    exact List.pairwise_lt_range'
  exact hrows.sublist (List.filter_sublist.map Prod.snd)

end TruthTable
end TwoLevel
