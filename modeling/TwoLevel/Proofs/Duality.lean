/-
# Negation exchanges the two forms

A text in parentheses with a negation sign before them is the negation of the text: its tokens
in postfix order are those of the text and one more negation, however oddly the text is written.
So the rows of its table have the other value, and the terms of one form are those of the other
form of the text.  The search and the choice see only the terms, and the writing of a form is the
dual of that of the other.

* `Derivation.exists_reads_of_ofInfix`: what is converted alone is read in the same way inside
  parentheses;
* `TruthTable.terms_negate`: the terms of the negated function are those of the other form;
* `NormalForm.write`: the two ways to write terms as a text;
* `Analysis.parse_negation`: the analysis of the negation.
-/
import TwoLevel.Proofs.Outcome

namespace TwoLevel

/-! ## 1. Reading what stands in parentheses -/

namespace Postfix

variable {stack rest base : List Waiting} {t : Token} {now : List Token}

/-- What stands below a stack stays there, if no operator lets go of it. -/
theorem releaseFor_append (o : Operator) (stack : List Waiting)
    (hbase : releaseFor o base = ([], base)) :
    releaseFor o (stack ++ base) = ((releaseFor o stack).1, (releaseFor o stack).2 ++ base) := by
  induction stack with
  | nil => exact hbase
  | cons w stack ih =>
    cases w with
    | paren => rfl
    | op top =>
      rw [List.cons_append, releaseFor, releaseFor]
      split
      · rw [ih]
      · rfl

/-- A token is placed in the same way above a stack that every operator keeps. -/
theorem Places.append (h : Places stack t now rest) (hbase : Derivation.Keeps 0 base) :
    Places (stack ++ base) t now (rest ++ base) := by
  cases h with
  | var c => exact .var c
  | op o =>
    have hplaces : Places (stack ++ base) (.op o) _ _ := .op o
    rwa [releaseFor_append o stack (hbase o (Nat.zero_le _))] at hplaces
  | leftParen => exact .leftParen
  | rightParen ops =>
    rw [List.append_assoc, List.cons_append]
    exact .rightParen ops

/-- What is converted under a stack is converted in the same way above a stack that every
operator keeps.  The operators that would go out at the end are left. -/
theorem exists_convert_append {ts out : List Token} (h : convert stack ts = .ok out) :
    ∃ (first : List Token) (ops : List Operator), out = first ++ ops.map .op ∧
      ∀ (base : List Waiting) (later : List Token), Derivation.Keeps 0 base →
        convert (stack ++ base) (ts ++ later)
          = (convert (ops.map .op ++ base) later).map (first ++ ·) := by
  induction ts generalizing stack out with
  | nil =>
    obtain ⟨ops, rfl, rfl⟩ := convert_nil_eq_ok_iff.mp h
    refine ⟨[], ops, rfl, fun base later _ => ?_⟩
    rw [List.nil_append]
    cases convert (ops.map .op ++ base) later <;> rfl
  | cons t ts ih =>
    obtain ⟨now, rest, last, hp, hl, rfl⟩ := convert_cons_eq_ok_iff.mp h
    obtain ⟨first, ops, rfl, hrest⟩ := ih hl
    refine ⟨now ++ first, ops, (List.append_assoc ..).symm, fun base later hbase => ?_⟩
    rw [List.cons_append, (hp.append hbase).convert_cons, hrest base later hbase,
      Derivation.map_append_map_append]

end Postfix

/-- **What is converted alone is read as a whole**, whatever stands around it, if the stack is
one that every operator keeps. -/
theorem Derivation.exists_reads_of_ofInfix {ts out : List Token}
    (h : Postfix.ofInfix ts = .ok out) :
    ∃ first pending, Reads 0 ts first pending ∧ out = first ++ pending.map .op := by
  obtain ⟨first, ops, hout, hconvert⟩ := Postfix.exists_convert_append h
  exact ⟨first, ops, ⟨fun _ _ => Nat.zero_le _, hconvert⟩, hout⟩

/-- A negation before a parenthesis goes out last. -/
theorem Postfix.ofInfix_negation {ts out : List Token} (h : ofInfix ts = .ok out) :
    ofInfix (.op .not :: .leftParen :: (ts ++ [.rightParen])) = .ok (out ++ [.op .not]) := by
  obtain ⟨first, pending, hreads, rfl⟩ := Derivation.exists_reads_of_ofInfix h
  exact hreads.paren.not.ofInfix

/-! ## 2. The negation of an expression -/

theorem Token.ofText_negation (source : String) :
    ofText ("! ( " ++ source ++ " )")
      = .op .not :: .leftParen :: (ofText source ++ [.rightParen]) := by
  have hopen : ofText "! (" = [.op .not, .leftParen] := by decide
  have hclose : ofText ")" = [.rightParen] := by decide
  have hblanks : "! ( " ++ source ++ " )" = "! (" ++ " " ++ (source ++ " " ++ ")") := by
    have h1 : "! ( " = "! (" ++ " " := by decide
    have h2 : " )" = " " ++ ")" := by decide
    simp only [h1, h2, String.append_assoc]
  rw [hblanks, ofText_append_blank, ofText_append_blank, hopen, hclose]
  rfl

/-- A negation at the end negates the value. -/
theorem Postfix.evaluate_negation {a : Assignment} {ts : List Token} {b : Bool}
    (h : evaluate a ts = .ok b) : evaluate a (ts ++ [.op .not]) = .ok (!b) := by
  rw [evaluate] at h ⊢
  rw [run_append]
  cases hr : run a [] ts with
  | error e => simp [hr] at h
  | ok stack =>
    rw [hr] at h
    rcases stack with _ | ⟨v, _ | ⟨w, stack⟩⟩
    · cases h
    · cases h
      rfl
    · cases h

namespace Expression

variable {source : String} {e : Expression}

/-- The negation of an expression. -/
def negation (e : Expression) : Expression :=
  ⟨"! ( " ++ e.source ++ " )", e.vars, e.tokens ++ [.op .not]⟩

theorem parse_negated (he : parse source = .ok e) :
    parse ("! ( " ++ source ++ " )") = .ok e.negation := by
  obtain ⟨ordered, ho, rfl⟩ := parse_eq_ok_iff.mp he
  have hvars : Variables.ofText ("! ( " ++ source ++ " )") = Variables.ofText source := by
    refine Ascending.ext_mem fun c => ?_
    simp [Variables.ofText, Token.ofText_negation]
  refine parse_eq_ok_iff.mpr ⟨ordered ++ [.op .not], ?_, ?_⟩
  · rw [Token.ofText_negation]
    exact Postfix.ofInfix_negation ho
  · rw [hvars]
    rfl

theorem eval_negation {a : Assignment} {b : Bool} (h : e.eval a = .ok b) :
    e.negation.eval a = .ok (!b) :=
  Postfix.evaluate_negation h

end Expression

namespace TruthTable

variable {source : String} {e : Expression} {t : TruthTable}

/-- The table of the negated function. -/
def negate (t : TruthTable) : TruthTable where
  vars := t.vars
  values := t.values.map (!·)
  size_le := t.size_le
  length_values := by rw [List.length_map, t.length_values]

@[simp] theorem value_negate (t : TruthTable) (v : Char → Bool) :
    t.negate.value v = !t.value v := by
  have h := t.negate.getElem?_values v
  rw [negate, List.getElem?_map, t.getElem?_values] at h
  exact (Option.some.inj h).symm

theorem ofExpression_negation (he : Expression.parse source = .ok e)
    (ht : ofExpression e = .ok t) : ofExpression e.negation = .ok t.negate := by
  have hvars : e.negation.vars = t.negate.vars := (ofExpressionOver_eq_ok_iff.mp ht).2.1.symm
  rw [ofExpression, hvars]
  refine exists_ofExpressionOver fun a v ha => ?_
  rw [value_negate]
  exact Expression.eval_negation (eval_eq_value he ht fun c hc => ha c (hvars ▸ hc))

/-- **The terms of the negated function are those of the other form.** -/
theorem terms_negate (t : TruthTable) (form : NormalForm) :
    t.negate.terms form = t.terms form.dual := by
  have hvalue : ∀ b : Bool, (!b) = form.target ↔ b = form.dual.target := by
    intro b
    rw [NormalForm.target_dual]
    exact Bool.not_eq_eq_eq_not
  simp only [terms, negate, List.zipIdx_map, List.filter_map, List.map_map, Function.comp_def,
    Prod.map, id, hvalue]

end TruthTable

/-! ## 3. Writing the two forms -/

namespace Literal

/-- The literal of the same variable that has the other value. -/
def negate (l : Literal) : Literal := { l with negated := !l.negated }

theorem ofValue_dual (form : NormalForm) (name : Char) (value : Bool) :
    ofValue form.dual name value = (ofValue form name value).negate := by
  have h := negated_ofValue_dual form name value
  rw [negate, ← h]
  rfl

end Literal

namespace NormalForm

/-- A sum of products as a text. -/
def sumOfProducts (terms : List (List Literal)) : String :=
  " | ".intercalate (terms.map fun ls => " & ".intercalate (ls.map (Literal.text .plain)))

/-- A product of sums as a text: a sum stands in parentheses unless it is a single literal. -/
def productOfSums (terms : List (List Literal)) : String :=
  " & ".intercalate (terms.map fun
    | [l] => l.text .plain
    | ls => "( " ++ " | ".intercalate (ls.map (Literal.text .plain)) ++ " )")

/-- The terms of a form as a text. -/
def write : NormalForm → List (List Literal) → String
  | .sop => sumOfProducts
  | .pos => productOfSums

/-- The terms with literals, each written as it is in a form, are the text of the form. -/
theorem intercalate_termText {form : NormalForm} {terms : List (List Literal)}
    (hne : ∀ ls ∈ terms, ls ≠ []) :
    (form.termSeparator .plain).intercalate (terms.map (Literal.termText form))
      = form.write terms := by
  cases form with
  | sop =>
    refine congrArg (" | ".intercalate ·) (List.map_congr_left fun ls hls => ?_)
    match ls with
    | [] => exact absurd rfl (hne [] hls)
    | [l] => simp [Literal.termText]
    | l :: m :: ls => rfl
  | pos =>
    refine congrArg (" & ".intercalate ·) (List.map_congr_left fun ls hls => ?_)
    match ls with
    | [] => exact absurd rfl (hne [] hls)
    | [l] => rfl
    | l :: m :: ls => rfl

end NormalForm

theorem Pattern.literals_dual (p : Pattern) (vs : Variables) (form : NormalForm) :
    p.literals vs form.dual = (p.literals vs form).map Literal.negate := by
  rw [literals, literals, List.map_filterMap]
  refine congrArg (List.filterMap · _) (funext fun ⟨s, name⟩ => ?_)
  cases s with
  | fixed value => exact congrArg some (Literal.ofValue_dual form name value)
  | free => rfl

/-! ## 4. The two forms of a function and of its negation -/

namespace Cover

variable {is : List Implicant} {terms : List Nat} {vs : Variables} {form other : NormalForm}
  {c d : Cover}

/-- The choice does not depend on the form that is written. -/
theorem selected_eq (hc : select is terms vs form = .ok c)
    (hd : select is terms vs other = .ok d) : c.selected = d.selected := by
  cases hdemand : Demand.ofTerms terms vs with
  | nothing | everything =>
    rw [select, hdemand, ofDemand] at hc hd
    cases hc
    cases hd
    rfl
  | some targets => rw [(of_select_some hdemand hc).2.1, (of_select_some hdemand hd).2.1]

end Cover

namespace Minimization

variable {t : TruthTable} {form : NormalForm} {m n : Minimization}

/-- The search and the choice for the negated function are those for the other form. -/
theorem eq_of_negate (h : ofTable t.negate form = .ok m) (k : ofTable t form.dual = .ok n) :
    m.primes = n.primes ∧ m.cover.selected = n.cover.selected := by
  obtain ⟨hsearch, hcover⟩ := of_ofTable h
  obtain ⟨ksearch, kcover⟩ := of_ofTable k
  rw [TruthTable.terms_negate] at hsearch hcover
  have hprimes : m.primes = n.primes :=
    congrArg PrimeSearch.primes (Except.ok.inj (hsearch.symm.trans ksearch))
  exact ⟨hprimes, Cover.selected_eq (hprimes ▸ hcover) kcover⟩

/-- **A function that is not constant is written as its terms**, none of which is empty. -/
theorem expression_eq_write (h : ofTable t form = .ok m) (hno : ¬ ∃ b, ∀ v, t.value v = b) :
    (∀ ls ∈ m.cover.selected.map (·.pattern.literals t.vars form), ls ≠ []) ∧
      m.cover.expression
        = form.write (m.cover.selected.map (·.pattern.literals t.vars form)) := by
  have hselected := selected_cover h hno
  have hwidth : ∀ j ∈ m.cover.selected, j.pattern.width = t.vars.size := by
    intro j hj
    exact ((arePrimes h).of_mem_selected (hselected ▸ hj)).1
  have hne : m.cover.selected ≠ [] := by
    obtain ⟨v, hv⟩ := exists_value (b := form.target) hno
    obtain ⟨j, hj, -⟩ := (value_eq_target_iff h v).mp hv
    exact List.ne_nil_of_mem (hselected ▸ hj)
  have hterms : ∀ ls ∈ m.cover.selected.map (·.pattern.literals t.vars form), ls ≠ [] := by
    intro ls hls
    obtain ⟨j, hj, rfl⟩ := List.mem_map.mp hls
    exact Pattern.literals_ne_nil (hwidth j hj)
      (isUniversal_of_mem_selected h (hselected ▸ hj) (exists_value hno))
  have htext := expressionOf_selected h hno
  rw [← hselected, Cover.expressionOf_eq_ok hne hwidth] at htext
  refine ⟨hterms, (Except.ok.inj htext).symm.trans ?_⟩
  rw [← NormalForm.intercalate_termText hterms, List.map_map]
  rfl

end Minimization

namespace Analysis

variable {source : String} {a : Analysis}

/-- The negation of a text that is analysed is analysed too, with the negated function. -/
theorem exists_parse_negated (h : parse source = .ok a) :
    ∃ b, parse ("! ( " ++ source ++ " )") = .ok b ∧ b.expression = a.expression.negation ∧
      b.table = a.table.negate := by
  obtain ⟨he, ht, -⟩ := of_parse h
  have hvars : a.expression.negation.vars.isEmpty = false := by
    rw [← Bool.not_eq_true]
    intro hnil
    rw [parse_of_isEmpty he hnil] at h
    cases h
  have hne := Expression.parse_negated he
  have hnt := TruthTable.ofExpression_negation he ht
  obtain ⟨b, hb⟩ := exists_parse_of_table hne hvars hnt
  obtain ⟨hbe, hbt, -⟩ := of_parse hb
  have hexpression : b.expression = a.expression.negation := Except.ok.inj (hbe.symm.trans hne)
  rw [hexpression] at hbt
  exact ⟨b, hb, hexpression, Except.ok.inj (hbt.symm.trans hnt)⟩

/-- **Negation exchanges the two forms.**  A text that is analysed can be put into parentheses
behind a negation sign.  The analysis has the same variables, and its tokens in postfix order
are one negation more; the terms, the prime implicants and the choice for a form are those of the
text for the other form.  Where the function is not constant, the two texts are made of the same
terms in the same order, each literal negated, one as a sum of products and one as a product of
sums. -/
theorem parse_negation (h : parse source = .ok a) :
    ∃ b, parse ("! ( " ++ source ++ " )") = .ok b ∧ b.vars = a.vars ∧
      b.expression.tokens = a.expression.tokens ++ [.op .not] ∧
      ∀ form : NormalForm, b.terms form = a.terms form.dual ∧ b.primes form = a.primes form.dual ∧
        (b.cover form).selected = (a.cover form.dual).selected ∧
        ((¬ ∃ v, ∀ x ∈ a.table.values, x = v) →
          ∃ terms : List (List Literal),
            terms = (a.cover form.dual).selected.map (·.pattern.literals a.vars form.dual) ∧
              (∀ ls ∈ terms, ls ≠ []) ∧ a.minimal form.dual = form.dual.write terms ∧
              b.minimal form = form.write (terms.map (List.map Literal.negate))) := by
  obtain ⟨b, hb, hexpression, htable⟩ := exists_parse_negated h
  have hvars : b.vars = a.vars := by
    rw [vars, htable]
    rfl
  refine ⟨b, hb, hvars, congrArg Expression.tokens hexpression, fun form => ?_⟩
  have hform := (of_parse hb).2.2 form
  have hdual := (of_parse h).2.2 form.dual
  rw [htable] at hform
  have hterms : b.terms form = a.terms form.dual := by
    rw [terms, htable]
    exact a.table.terms_negate form
  have hselected : (b.cover form).selected = (a.cover form.dual).selected :=
    (Minimization.eq_of_negate hform hdual).2
  refine ⟨hterms, (Minimization.eq_of_negate hform hdual).1, hselected, fun hno => ?_⟩
  rw [← TruthTable.exists_forall_value_iff] at hno
  obtain ⟨hne, htext⟩ := Minimization.expression_eq_write hdual hno
  refine ⟨_, rfl, hne, htext, ?_⟩
  -- negating the literals of the other form gives those of the form
  have hliterals : ∀ j : Implicant, (j.pattern.literals a.vars form.dual).map Literal.negate
      = j.pattern.literals a.vars form := by
    intro j
    rw [← Pattern.literals_dual, NormalForm.dual_dual]
  rw [List.map_map, ← hselected]
  simp only [Function.comp_def, hliterals]
  refine (Minimization.expression_eq_write hform ?_).2
  rintro ⟨v, hconst⟩
  exact hno ⟨!v, fun w => by rw [← hconst w, TruthTable.value_negate, Bool.not_not]⟩

/-- The negation of a text whose operator stands at its end: its sum of products has the term of
the product of sums of the text. -/
theorem parse_negation_of_operator_last :
    ∃ a b, parse "( a b | ) & ! c" = .ok a ∧ a.minimal .pos = "( a | b ) & !c" ∧
      parse "! ( ( a b | ) & ! c )" = .ok b ∧ b.minimal .sop = "!a & !b | c" := by
  have hparsed : (parse "( a b | ) & ! c").map (fun a => (a.table.values,
      (a.cover .pos).selected.map (·.pattern.literals a.vars .pos), a.minimal .pos))
      = .ok ([false, false, true, false, true, false, true, false],
        [[⟨'a', false⟩, ⟨'b', false⟩], [⟨'c', true⟩]], "( a | b ) & !c") := by rfl
  cases h : parse "( a b | ) & ! c" with
  | error e => simp [h, Except.map] at hparsed
  | ok a =>
    simp only [h, Except.map, Except.ok.injEq, Prod.mk.injEq] at hparsed
    obtain ⟨hvalues, hliterals, htext⟩ := hparsed
    obtain ⟨b, hb, -, -, hforms⟩ := parse_negation h
    have hno : ¬ ∃ v, ∀ x ∈ a.table.values, x = v := by
      rw [hvalues]
      decide
    obtain ⟨terms, hterms, -, -, hminimal⟩ := (hforms .sop).2.2.2 hno
    rw [hterms, NormalForm.dual, hliterals] at hminimal
    exact ⟨a, b, rfl, htext, hb, hminimal⟩

end Analysis
end TwoLevel
