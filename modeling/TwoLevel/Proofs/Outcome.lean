/-
# When a text can be analysed

The stages of an analysis can fail in many ways, but on a text only few of them are left.  The
variables of the tokens are those of the tokens in postfix order, so each row gives a value to all
of them; the terms of a table are rows, and all prime implicants have one width.  What remains
is decided by the tokens alone, and by counting operands.

* `TruthTable.exists_ofExpression`, `TruthTable.ofExpression_of_eval`: a table exists, or fails as
  each of its rows does;
* `Analysis.exists_parse_of_table`: behind the table nothing fails;
* `Analysis.parse_outcome`: which failure a text has, or none.
-/
import TwoLevel.Proofs.Canonical
import TwoLevel.Proofs.Conversion

namespace TwoLevel

open Postfix (ofInfix operands)

/-! ## 1. The table of an expression -/

namespace TruthTable

variable {source : String} {e : Expression}

/-- A row gives a value to each variable that is evaluated. -/
theorem exists_get?_ofRow (he : Expression.parse source = .ok e) (i : Nat) {c : Char}
    (hc : Token.var c ∈ e.tokens) : ∃ v, (Assignment.ofRow e.vars i).get? c = some v :=
  ⟨_, Assignment.get?_ofRow (Expression.var_mem_of_parse he hc)⟩

theorem size_vars_le (he : Expression.parse source = .ok e) : e.vars.size ≤ maxVariables :=
  Variables.size_le fun _ hc => Expression.isVariable_of_parse he hc

/-- An expression that counts to one operand has a table. -/
theorem exists_ofExpression (he : Expression.parse source = .ok e)
    (hone : operands 0 e.tokens = .ok 1) : ∃ t, ofExpression e = .ok t := by
  obtain ⟨values, hvalues⟩ : ∃ values,
      collect (fun i => e.eval (Assignment.ofRow e.vars i)) (List.range e.vars.rowCount)
        = .ok values :=
    exists_collect fun i _ => Postfix.exists_evaluate (fun _ hc => exists_get?_ofRow he i hc) hone
  have hlen : values.length = e.vars.rowCount := by simpa using length_of_collect hvalues
  exact ⟨⟨e.vars, values, size_vars_le he, hlen⟩,
    ofExpressionOver_eq_ok_iff.mpr ⟨size_vars_le he, rfl, collect_eq_ok_iff.mp hvalues⟩⟩

/-- An expression that fails in the same way on each row fails so for the table. -/
theorem ofExpressionOver_of_eval {vs : Variables} (hs : vs.size ≤ maxVariables) {error : Error}
    (h : ∀ i, e.eval (Assignment.ofRow vs i) = .error error) :
    ofExpressionOver vs e = .error error := by
  refine (ofExpressionOver_eq_error_iff hs).mpr ?_
  obtain ⟨n, hn⟩ := Nat.exists_eq_succ_of_ne_zero
    (Nat.pos_iff_ne_zero.mp (RowIndex.count_pos vs.size))
  rw [Variables.rowCount, hn, List.range_succ_eq_map, collect, h 0]

theorem ofExpression_of_eval (he : Expression.parse source = .ok e) {error : Error}
    (h : ∀ i, e.eval (Assignment.ofRow e.vars i) = .error error) :
    ofExpression e = .error error :=
  ofExpressionOver_of_eval (size_vars_le he) h

end TruthTable

/-! ## 2. The stages of an analysis -/

namespace Analysis

variable {source : String} {e : Expression} {out : List Token}

theorem parse_of_expression_error {error : Error} (h : Expression.parse source = .error error) :
    parse source = .error error := by
  rw [parse, h]
  rfl

theorem isEmpty_vars_iff (he : Expression.parse source = .ok e) :
    e.vars.isEmpty = true ↔ ∀ c, Token.var c ∉ Token.ofText source := by
  obtain ⟨out, -, rfl⟩ := Expression.parse_eq_ok_iff.mp he
  rw [Ascending.isEmpty, List.isEmpty_iff, List.eq_nil_iff_forall_not_mem]
  exact forall_congr' fun c => not_congr Variables.mem_ofTokens

theorem parse_of_isEmpty (he : Expression.parse source = .ok e) (hnil : e.vars.isEmpty = true) :
    parse source = .error .missingExpression := by
  rw [parse, he]
  exact if_pos hnil

/-- With a variable, the table is what comes next. -/
theorem parse_of_table_error (he : Expression.parse source = .ok e)
    (hvars : e.vars.isEmpty = false) {error : Error}
    (ht : TruthTable.ofExpression e = .error error) : parse source = .error error := by
  have hsize : ¬ maxVariables < e.vars.size := Nat.not_lt.mpr (TruthTable.size_vars_le he)
  simp [parse, he, ofExpression, hvars, hsize, ht, bind, Except.bind]

/-- **Behind the table nothing fails.** -/
theorem exists_parse_of_table (he : Expression.parse source = .ok e)
    (hvars : e.vars.isEmpty = false) {t : TruthTable} (ht : TruthTable.ofExpression e = .ok t) :
    ∃ a, parse source = .ok a := by
  have hsize : ¬ maxVariables < e.vars.size := Nat.not_lt.mpr (TruthTable.size_vars_le he)
  obtain ⟨sop, hsop⟩ := Minimization.exists_ofTable t .sop
  obtain ⟨pos, hpos⟩ := Minimization.exists_ofTable t .pos
  exact ⟨⟨e, t, sop, pos⟩, by
    simp [parse, he, ofExpression, hvars, hsize, ht, hsop, hpos, bind, Except.bind, pure,
      Except.pure]⟩

/-! ## 3. The outcome -/

/-- The tokens of a text in postfix order, for a text with a variable. -/
structure Ordered (source : String) (out : List Token) : Prop where
  ordered : ofInfix (Token.ofText source) = .ok out
  hasVar : ∃ c, Token.var c ∈ Token.ofText source

namespace Ordered

theorem exists_expression (h : Ordered source out) :
    ∃ e, Expression.parse source = .ok e ∧ e.tokens = out ∧ e.vars.isEmpty = false := by
  refine ⟨_, Expression.parse_eq_ok_iff.mpr ⟨out, h.ordered, rfl⟩, rfl, ?_⟩
  obtain ⟨c, hc⟩ := h.hasVar
  refine Bool.eq_false_iff.mpr fun hnil => ?_
  exact (isEmpty_vars_iff (Expression.parse_eq_ok_iff.mpr ⟨out, h.ordered, rfl⟩)).mp hnil c hc

/-- A failure of the evaluation that the assignment has no part in is that of the analysis. -/
theorem parse_eq_error (h : Ordered source out) {error : Error}
    (heval : ∀ a : Assignment, (∀ c, Token.var c ∈ out → ∃ v, a.get? c = some v) →
      Postfix.evaluate a out = .error error) : parse source = .error error := by
  obtain ⟨e, he, rfl, hvars⟩ := h.exists_expression
  refine parse_of_table_error he hvars (TruthTable.ofExpression_of_eval he fun i => ?_)
  exact heval _ fun _ hc => TruthTable.exists_get?_ofRow he i hc

theorem exists_parse (h : Ordered source out) (hone : operands 0 out = .ok 1) :
    ∃ a, parse source = .ok a := by
  obtain ⟨e, he, rfl, hvars⟩ := h.exists_expression
  obtain ⟨t, ht⟩ := TruthTable.exists_ofExpression he hone
  exact exists_parse_of_table he hvars ht

/-- The tokens in postfix order hold the variable, so at least one operand is left. -/
theorem pos_of_operands (h : Ordered source out) {n : Nat} (hn : operands 0 out = .ok n) :
    0 < n := by
  refine Postfix.pos_of_operands hn (.inr ?_)
  rintro rfl
  obtain ⟨c, hc⟩ := h.hasVar
  have hnames := Postfix.filterMap_name?_of_convert h.ordered
  have hmem : c ∈ (Token.ofText source).filterMap Token.name? :=
    List.mem_filterMap.mpr ⟨_, hc, rfl⟩
  rw [← hnames] at hmem
  cases hmem

/-- **The three outcomes of a count**: an operator without its operands, operands without an
operator, and an analysis. -/
theorem outcome (h : Ordered source out) :
    (∃ before o after n, out = before ++ .op o :: after ∧ operands 0 before = .ok n ∧
      n < o.arity ∧ parse source = .error (.parse (.missingOperand o.symbol))) ∨
    (∃ n, operands 0 out = .ok n ∧ 1 < n ∧
      parse source = .error (.parse (.danglingOperands n))) ∨
    (operands 0 out = .ok 1 ∧ ∃ a, parse source = .ok a) := by
  cases hcount : operands 0 out with
  | error fault =>
    obtain ⟨before, o, after, n, hsplit, hn, hlt, rfl⟩ :=
      Postfix.exists_of_operands_error (Postfix.isSymbol_of_ofInfix h.ordered) hcount
    exact .inl ⟨before, o, after, n, hsplit, hn, hlt,
      h.parse_eq_error fun a ha => Postfix.evaluate_of_error ha hcount⟩
  | ok n =>
    rcases Nat.lt_or_eq_of_le (h.pos_of_operands hcount) with hlt | rfl
    · exact .inr (.inl ⟨n, rfl, hlt,
        h.parse_eq_error fun a ha => Postfix.evaluate_of_lt ha hcount hlt⟩)
    · exact .inr (.inr ⟨rfl, h.exists_parse hcount⟩)

end Ordered

/-- A text is analysed exactly when its tokens have a postfix order that counts to one operand. -/
theorem exists_parse_iff :
    (∃ a, parse source = .ok a) ↔ ∃ out, Ordered source out ∧ operands 0 out = .ok 1 := by
  constructor
  · rintro ⟨a, ha⟩
    cases hconv : ofInfix (Token.ofText source) with
    | error fault =>
      have he : Expression.parse source = .error (.parse fault) := by
        rw [Expression.parse, hconv]
      rw [parse_of_expression_error he] at ha
      cases ha
    | ok out =>
      by_cases hvar : ∃ c, Token.var c ∈ Token.ofText source
      · refine ⟨out, ⟨hconv, hvar⟩, ?_⟩
        rcases Ordered.outcome ⟨hconv, hvar⟩ with ⟨_, _, _, _, _, _, _, h⟩ | ⟨_, _, _, h⟩ | ⟨h, -⟩
        · rw [ha] at h
          cases h
        · rw [ha] at h
          cases h
        · exact h
      · have he : Expression.parse source = .ok ⟨source, Variables.ofText source, out⟩ :=
          Expression.parse_eq_ok_iff.mpr ⟨out, hconv, rfl⟩
        have hnil := (isEmpty_vars_iff he).mpr fun c hc => hvar ⟨c, hc⟩
        rw [parse_of_isEmpty he hnil] at ha
        cases ha
  · rintro ⟨out, h, hone⟩
    exact h.exists_parse hone

/-- **The outcome of an analysis.**  A fault of the conversion is the failure; then a text
without variables fails, then the first operator that finds too few operands, then operands that
are left over; every other text is analysed.  Other failures do not occur. -/
theorem parse_outcome (source : String) :
    (∀ fault, ofInfix (Token.ofText source) = .error fault →
      parse source = .error (.parse fault)) ∧
    (∀ out, ofInfix (Token.ofText source) = .ok out → (∀ c, Token.var c ∉ Token.ofText source) →
      parse source = .error .missingExpression) ∧
    (∀ out, ofInfix (Token.ofText source) = .ok out → (∃ c, Token.var c ∈ Token.ofText source) →
      (∃ before o after n, out = before ++ .op o :: after ∧ operands 0 before = .ok n ∧
        n < o.arity ∧ parse source = .error (.parse (.missingOperand o.symbol))) ∨
      (∃ n, operands 0 out = .ok n ∧ 1 < n ∧
        parse source = .error (.parse (.danglingOperands n))) ∨
      (operands 0 out = .ok 1 ∧ ∃ a, parse source = .ok a)) ∧
    (∀ error, parse source = .error error →
      error = .missingExpression ∨ ∃ fault, error = .parse fault ∧ fault ≠ .emptyExpression) := by
  have hfault : ∀ fault, ofInfix (Token.ofText source) = .error fault →
      parse source = .error (.parse fault) := by
    intro fault hf
    refine parse_of_expression_error ?_
    rw [Expression.parse, hf]
  have hmissing : ∀ out, ofInfix (Token.ofText source) = .ok out →
      (∀ c, Token.var c ∉ Token.ofText source) → parse source = .error .missingExpression := by
    intro out hout hnone
    have he := Expression.parse_eq_ok_iff.mpr ⟨out, hout, rfl⟩
    exact parse_of_isEmpty he ((isEmpty_vars_iff he).mpr hnone)
  refine ⟨hfault, hmissing, fun out hout hvar => Ordered.outcome ⟨hout, hvar⟩, ?_⟩
  intro error herror
  cases hconv : ofInfix (Token.ofText source) with
  | error fault =>
    obtain rfl : Error.parse fault = error :=
      Except.error.inj ((hfault fault hconv).symm.trans herror)
    refine .inr ⟨fault, rfl, ?_⟩
    rcases Postfix.fault?_eq_some (Postfix.convert_eq_error_iff.mp hconv) with ⟨w, rfl⟩ | rfl
    · exact ParseError.noConfusion
    · exact ParseError.noConfusion
  | ok out =>
    by_cases hvar : ∃ c, Token.var c ∈ Token.ofText source
    · rcases Ordered.outcome ⟨hconv, hvar⟩ with ⟨_, o, _, _, _, _, _, h⟩ | ⟨n, _, _, h⟩ | ⟨-, a, h⟩
      · obtain rfl := Except.error.inj (h.symm.trans herror)
        exact .inr ⟨_, rfl, ParseError.noConfusion⟩
      · obtain rfl := Except.error.inj (h.symm.trans herror)
        exact .inr ⟨_, rfl, ParseError.noConfusion⟩
      · cases h.symm.trans herror
    · obtain rfl := Except.error.inj
        ((hmissing out hconv fun c hc => hvar ⟨c, hc⟩).symm.trans herror)
      exact .inl rfl

/-- Four texts with a fault: a parenthesis without partner, no variable, an operator without its
operands and operands without an operator. -/
theorem parse_outcome_of_faults :
    parse "( a" = .error (.parse .mismatchedParentheses) ∧
      parse "( ! )" = .error .missingExpression ∧
      parse "a | | b" = .error (.parse (.missingOperand "|")) ∧
      parse "a b ! c" = .error (.parse (.danglingOperands 3)) := by
  have hnovar : ∀ c, Token.var c ∉ Token.ofText "( ! )" := by
    have htokens : Token.ofText "( ! )" = [.leftParen, .op .not, .rightParen] := by decide
    simp [htokens]
  have hor : ofInfix (Token.ofText "a | | b")
      = .ok [.var 'a', .op .or, .var 'b', .op .or] := rfl
  have hleft : ofInfix (Token.ofText "a b ! c")
      = .ok [.var 'a', .var 'b', .var 'c', .op .not] := rfl
  refine ⟨(parse_outcome "( a").1 _ rfl, (parse_outcome "( ! )").2.1 _ rfl hnovar, ?_, ?_⟩
  · rcases (parse_outcome "a | | b").2.2.1 _ hor ⟨'a', by decide⟩ with
      ⟨before, o, after, n, hsplit, -, -, h⟩ | ⟨n, hn, -⟩ | ⟨hn, -⟩
    · have hmem : Token.op o ∈ [Token.var 'a', .op .or, .var 'b', .op .or] := by
        rw [hsplit]
        simp
      obtain rfl : o = .or := by simpa using hmem
      exact h
    · cases hn
    · cases hn
  · rcases (parse_outcome "a b ! c").2.2.1 _ hleft ⟨'a', by decide⟩ with
      ⟨before, o, after, n, hsplit, hn, hlt, -⟩ | ⟨n, hn, -, h⟩ | ⟨hn, -⟩
    · have hcount : operands 0 [.var 'a', .var 'b', .var 'c', .op .not] = .ok 3 := rfl
      rw [hsplit, Postfix.operands_append, hn] at hcount
      simp [operands, hlt] at hcount
    · cases hn
      exact h
    · cases hn

end Analysis
end TwoLevel
