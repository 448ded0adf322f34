/-
# Tables over more variables

The table of an expression may be made over more variables than occur in it.  The bits of the
other variables have no influence: a row has the value that the expression has on the row over
its own variables with the same bits for them (`Variables.restrict`).  Where one of its own
variables is missing there is no table, and the first one that is evaluated is reported.

* `Variables.restrict_ofBits`: restricting a row keeps the values of the variables of the part;
* `TruthTable.exists_extension`: the table over more variables, row by row;
* `TruthTable.exists_unassigned`: the failure where a variable is missing;
* `TruthTable.ofExpressionOver_spec`: both together.
-/
import TwoLevel.Proofs.Outcome

namespace TwoLevel

/-! ## 1. Rows over a part of the variables -/

/-- The index over a part of some variables that keeps, in order, their bits of an index. -/
def Variables.restrict (vs part : Variables) (index : Nat) : Nat :=
  RowIndex.ofBits
    (((vs.toList.zip (RowIndex.bits vs.size index)).filter (·.1 ∈ part)).map Prod.snd)

example : (Variables.ofNames ['a', 'b', 'c']).restrict (.ofNames ['a', 'c']) 6 = 2 := by decide

/-- Restricting the row of some values gives the row of the same values. -/
theorem Variables.restrict_ofBits {vs part : Variables} (h : ∀ c ∈ part, c ∈ vs)
    (v : Char → Bool) :
    vs.restrict part (RowIndex.ofBits (vs.toList.map v)) = RowIndex.ofBits (part.toList.map v) := by
  have hbits := RowIndex.bits_ofBits (vs.toList.map v)
  rw [List.length_map] at hbits
  have hzip : vs.toList.zip (vs.toList.map v) = vs.toList.map fun c => (c, v c) := by
    simpa using List.zip_map' (f := id) (g := v) (l := vs.toList)
  have hpart : vs.filter (· ∈ part) = part := by
    refine Ascending.ext_mem fun c => ?_
    rw [Ascending.mem_filter, decide_eq_true_eq]
    exact and_iff_right_of_imp (h c)
  have hnames : vs.toList.filter (· ∈ part) = part.toList := congrArg Ascending.toList hpart
  rw [restrict, Ascending.size, hbits, hzip, List.filter_map, List.map_map]
  exact congrArg (fun names => RowIndex.ofBits (List.map v names)) hnames

namespace Assignment

variable {vs : Variables}

/-- A name that is no variable has no value on a row. -/
theorem get?_ofRow_of_notMem {index : Nat} {c : Char} (hc : c ∉ vs) :
    (ofRow vs index).get? c = none := by
  rw [get?, List.lookup_eq_none_iff]
  rintro ⟨name, value⟩ hmem
  have hname : name ∈ vs := (List.of_mem_zip hmem).1
  simpa using fun e : c = name => hc (e ▸ hname)

theorem ext_entries {a b : Assignment} (h : a.entries = b.entries) : a = b := by
  cases a
  cases b
  cases h
  rfl

theorem length_values {a : Assignment} (h : a.names = vs.toList) : a.values.length = vs.size := by
  rw [values, Ascending.size, ← h, names, List.length_map, List.length_map]

/-- An assignment of all variables is the row whose bits are its values. -/
theorem eq_ofRow {a : Assignment} (h : a.names = vs.toList) :
    a = ofRow vs (RowIndex.ofBits a.values) := by
  have hbits : RowIndex.bits vs.size (RowIndex.ofBits a.values) = a.values :=
    length_values h ▸ RowIndex.bits_ofBits a.values
  have hentries : a.entries = vs.toList.zip a.values := List.zip_of_prod h rfl
  exact ext_entries (hentries.trans (congrArg vs.toList.zip hbits.symm))

/-- Rows are told apart by their assignments. -/
theorem ofRow_inj {i j : Nat} (hi : i < vs.rowCount) (hj : j < vs.rowCount)
    (h : ofRow vs i = ofRow vs j) : i = j := by
  have hvalues := congrArg values h
  rw [values_ofRow, values_ofRow] at hvalues
  exact RowIndex.bits_inj hi hj hvalues

end Assignment

namespace TruthTable

variable {source : String} {e : Expression} {t u : TruthTable} {vs : Variables}

/-- The row at an index is its assignment with the value there. -/
theorem getElem?_rows {i : Nat} {a : Assignment} {b : Bool} :
    t.rows[i]? = some (a, b) ↔ t.values[i]? = some b ∧ Assignment.ofRow t.vars i = a := by
  rw [rows, List.getElem?_map, List.getElem?_zipIdx]
  cases t.values[i]? <;> simp [and_comm]

/-- **Each assignment of all variables is in one row.** -/
theorem existsUnique_row {a : Assignment} (h : a.names = t.vars.toList) :
    ∃! i : Nat, ∃ b, t.rows[i]? = some (a, b) := by
  have hlt : RowIndex.ofBits a.values < t.vars.rowCount := by
    have hbits := RowIndex.ofBits_lt a.values
    rwa [Assignment.length_values h] at hbits
  obtain ⟨b, hb⟩ : ∃ b, t.values[RowIndex.ofBits a.values]? = some b :=
    ⟨_, List.getElem?_eq_getElem (t.length_values ▸ hlt)⟩
  refine ⟨RowIndex.ofBits a.values, ⟨b, getElem?_rows.mpr ⟨hb, (Assignment.eq_ofRow h).symm⟩⟩, ?_⟩
  rintro i ⟨c, hi⟩
  obtain ⟨hvalue, hrow⟩ := getElem?_rows.mp hi
  have hilt : i < t.vars.rowCount := t.length_values ▸ (List.getElem?_eq_some_iff.mp hvalue).1
  exact Assignment.ofRow_inj hilt hlt (hrow.trans (Assignment.eq_ofRow h))

/-! ## 2. More variables than occur -/

/-- **The table over more variables.**  Each of its rows has the value of the row over the
variables of the expression with the same bits for them, and so has every assignment that agrees
with the row on these variables. -/
theorem exists_extension (he : Expression.parse source = .ok e) (ht : ofExpression e = .ok t)
    (hs : vs.size ≤ maxVariables) (hvs : ∀ c ∈ e.vars, c ∈ vs) :
    ∃ u, ofExpressionOver vs e = .ok u ∧ u.vars = vs ∧
      ∀ i < vs.rowCount, ∃ b, u.rows[i]? = some (.ofRow vs i, b) ∧
        t.rows[vs.restrict e.vars i]? = some (.ofRow e.vars (vs.restrict e.vars i), b) ∧
        ∀ a : Assignment, (∀ c ∈ e.vars, a.get? c = (Assignment.ofRow vs i).get? c) →
          e.eval a = .ok b := by
  have htvars : t.vars = e.vars := (ofExpressionOver_eq_ok_iff.mp ht).2.1
  obtain ⟨u, rfl, hvalue⟩ := t.exists_value_eq hs (htvars ▸ hvs)
  have hu : ofExpressionOver u.vars e = .ok u := by
    refine exists_ofExpressionOver fun a v ha => ?_
    rw [hvalue]
    exact eval_eq_value he ht fun c hc => ha c (hvs c hc)
  refine ⟨u, hu, rfl, fun i hi => ?_⟩
  obtain ⟨v, rfl⟩ := exists_row u.vars hi
  refine ⟨t.value v, getElem?_rows.mpr ⟨hvalue ▸ u.getElem?_values v, rfl⟩, ?_, ?_⟩
  · rw [Variables.restrict_ofBits hvs, ← htvars]
    exact getElem?_rows.mpr ⟨t.getElem?_values v, rfl⟩
  · intro a ha
    refine eval_eq_value he ht fun c hc => ?_
    rw [ha c hc, Assignment.get?_ofRow_ofBits (hvs c hc)]

end TruthTable

/-! ## 3. A variable that is missing -/

namespace Postfix

/-- Where tokens have a value, they can be counted. -/
theorem exists_operands {a : Assignment} {ts : List Token} {b : Bool}
    (h : ∀ c, Token.var c ∈ ts → ∃ v, a.get? c = some v) (hb : evaluate a ts = .ok b) :
    ∃ n, operands 0 ts = .ok n := by
  cases hcount : operands 0 ts with
  | ok n => exact ⟨n, rfl⟩
  | error fault =>
    rw [evaluate_of_error h hcount] at hb
    cases hb

/-- The first variable without a value is what the evaluation fails with, if the tokens before it
can be counted. -/
theorem evaluate_of_unassigned {a : Assignment} {before after : List Token} {c : Char} {n : Nat}
    (hbefore : ∀ d, Token.var d ∈ before → ∃ v, a.get? d = some v)
    (hn : operands 0 before = .ok n) (hc : a.get? c = none) :
    evaluate a (before ++ .var c :: after) = .error (.unassignedVariable c) := by
  obtain ⟨stack, hrun, -⟩ := exists_run hbefore hn
  rw [evaluate, run_append, hrun]
  simp only [run, step, hc]

end Postfix

namespace Expression

variable {source : String} {e : Expression} {vs : Variables}

/-- The variables of an expression are evaluated. -/
theorem var_mem_tokens (he : parse source = .ok e) {c : Char} (hc : c ∈ e.vars) :
    Token.var c ∈ e.tokens := by
  obtain ⟨ordered, ho, rfl⟩ := parse_eq_ok_iff.mp he
  have hname : c ∈ (Token.ofText source).filterMap Token.name? := Variables.mem_ofNames.mp hc
  rw [← Postfix.filterMap_name?_of_convert ho] at hname
  obtain ⟨t, ht, htc⟩ := List.mem_filterMap.mp hname
  exact Token.name?_eq_some_iff.mp htc ▸ ht

/-- Where a variable is missing, there is a first one that is evaluated. -/
theorem exists_first_missing (he : parse source = .ok e) (h : ∃ c ∈ e.vars, c ∉ vs) :
    ∃ before c after, e.tokens = before ++ .var c :: after ∧
      (∀ d, Token.var d ∈ before → d ∈ vs) ∧ c ∉ vs := by
  obtain ⟨x, hx, hxvs⟩ := h
  obtain ⟨before, t, after, hsplit, ⟨c, rfl, hc⟩, hbefore⟩ :=
    exists_first (p := fun t : Token => ∃ c, t = .var c ∧ c ∉ vs)
      ⟨_, var_mem_tokens he hx, x, rfl, hxvs⟩
  refine ⟨before, c, after, hsplit, fun d hd => ?_, hc⟩
  exact Classical.byContradiction fun hdvs => hbefore _ hd ⟨d, rfl, hdvs⟩

end Expression

namespace TruthTable

variable {source : String} {e : Expression} {t : TruthTable} {vs : Variables}

/-- **The table over too few variables.**  The first missing variable that is evaluated is
reported: the tokens before it have a value on each row, as they have one over all variables. -/
theorem exists_unassigned (he : Expression.parse source = .ok e) (ht : ofExpression e = .ok t)
    (hs : vs.size ≤ maxVariables) (hvs : ∃ c ∈ e.vars, c ∉ vs) :
    ∃ before c after, e.tokens = before ++ .var c :: after ∧
      (∀ d, Token.var d ∈ before → d ∈ vs) ∧ c ∉ vs ∧
      ofExpressionOver vs e = .error (.unassignedVariable c) := by
  obtain ⟨before, c, after, hsplit, hbefore, hc⟩ := Expression.exists_first_missing he hvs
  refine ⟨before, c, after, hsplit, hbefore, hc, ofExpressionOver_of_eval hs fun i => ?_⟩
  obtain ⟨n, hn⟩ : ∃ n, Postfix.operands 0 e.tokens = .ok n :=
    Postfix.exists_operands (fun d hd => exists_get?_ofRow he _ hd)
      (ofExpressionOver_value ht fun _ => false)
  have hcount : ∃ m, Postfix.operands 0 before = .ok m := by
    rw [hsplit, Postfix.operands_append] at hn
    cases hm : Postfix.operands 0 before with
    | ok m => exact ⟨m, rfl⟩
    | error fault => simp [hm] at hn
  obtain ⟨m, hm⟩ := hcount
  rw [Expression.eval, hsplit]
  exact Postfix.evaluate_of_unassigned (fun d hd => ⟨_, Assignment.get?_ofRow (hbefore d hd)⟩) hm
    (Assignment.get?_ofRow_of_notMem hc)

/-- **The table of an expression over other variables.**  With all variables of the expression
it is the table of the same function: each assignment of the variables is in one row, and the row
has the value of the row over the variables of the expression with the same bits for them, which
is the value under every assignment that agrees with the row on them.  Without one of them there
is no table, and the first missing variable in postfix order is reported. -/
theorem ofExpressionOver_spec (he : Expression.parse source = .ok e)
    (ht : ofExpression e = .ok t) (hs : vs.size ≤ maxVariables) :
    ((∀ c ∈ e.vars, c ∈ vs) →
      ∃ u, ofExpressionOver vs e = .ok u ∧ u.rows.length = 2 ^ vs.size ∧
        (∀ a : Assignment, a.names = vs.toList → ∃! i : Nat, ∃ b, u.rows[i]? = some (a, b)) ∧
        ∀ i < 2 ^ vs.size, ∃ b, u.rows[i]? = some (.ofRow vs i, b) ∧
          t.rows[vs.restrict e.vars i]? = some (.ofRow e.vars (vs.restrict e.vars i), b) ∧
          ∀ a : Assignment, (∀ c ∈ e.vars, a.get? c = (Assignment.ofRow vs i).get? c) →
            e.eval a = .ok b) ∧
    ((∃ c ∈ e.vars, c ∉ vs) →
      ∃ before c after, e.tokens = before ++ .var c :: after ∧
        (∀ d, Token.var d ∈ before → d ∈ vs) ∧ c ∉ vs ∧
        ofExpressionOver vs e = .error (.unassignedVariable c)) := by
  constructor
  · intro hvs
    obtain ⟨u, hu, rfl, hrows⟩ := exists_extension he ht hs hvs
    rw [← Variables.rowCount_eq]
    exact ⟨u, hu, u.length_rows, fun a ha => existsUnique_row ha, hrows⟩
  · intro hvs
    exact exists_unassigned he ht hs hvs

/-- The table of `d | ! b` over five variables has, where `b`, `c` and `e` hold, the value of
the row where only `b` holds; over `d` alone there is no table. -/
theorem ofExpressionOver_of_or_not :
    ∃ e t u, Expression.parse "d | ! b" = .ok e ∧ ofExpression e = .ok t ∧
      ofExpressionOver (.ofNames ['a', 'b', 'c', 'd', 'e']) e = .ok u ∧ u.rows.length = 32 ∧
      (∃ a, u.rows[13]? = some (a, false)) ∧ (∃ a, t.rows[2]? = some (a, false)) ∧
      ofExpressionOver (.ofNames ['d']) e = .error (.unassignedVariable 'b') := by
  have he : Expression.parse "d | ! b"
      = .ok ⟨"d | ! b", .ofNames ['b', 'd'], [.var 'd', .var 'b', .op .not, .op .or]⟩ := by decide
  obtain ⟨t, ht⟩ := exists_ofExpression he rfl
  have hvs : ∀ c ∈ Variables.ofNames ['b', 'd'],
      c ∈ Variables.ofNames ['a', 'b', 'c', 'd', 'e'] := by
    intro c hc
    have hc : c = 'b' ∨ c = 'd' := by simpa using Variables.mem_ofNames.mp hc
    rcases hc with rfl | rfl <;> decide
  obtain ⟨u, hu, hlen, -, hrows⟩ :=
    (@ofExpressionOver_spec _ _ _ (.ofNames ['a', 'b', 'c', 'd', 'e']) he ht (by decide)).1 hvs
  obtain ⟨b, hub, htb, heval⟩ := hrows 13 (by decide)
  obtain rfl : b = false := by
    have h := heval (.ofRow (.ofNames ['a', 'b', 'c', 'd', 'e']) 13) fun _ _ => rfl
    exact (Except.ok.inj h).symm
  have hindex : (Variables.ofNames ['a', 'b', 'c', 'd', 'e']).restrict (.ofNames ['b', 'd']) 13
      = 2 := by decide
  obtain ⟨before, c, after, hsplit, -, hc, herror⟩ :=
    (@ofExpressionOver_spec _ _ _ (.ofNames ['d']) he ht (by decide)).2 ⟨'b', by decide, by decide⟩
  obtain rfl : c = 'b' := by
    have hmem : Token.var c ∈ [Token.var 'd', .var 'b', .op .not, .op .or] := by
      rw [show [Token.var 'd', .var 'b', .op .not, .op .or] = _ from hsplit]
      simp
    have hd : c ≠ 'd' := by
      intro h
      exact hc (h.symm ▸ (by decide : 'd' ∈ Variables.ofNames ['d']))
    simpa [hd] using hmem
  exact ⟨_, t, u, he, ht, hu, hlen, ⟨_, hub⟩, ⟨_, hindex ▸ htb⟩, herror⟩

end TruthTable
end TwoLevel
