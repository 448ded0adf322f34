/-
# Counting operands

Whether tokens in postfix order have a value, and how they fail to, does not depend on the values
of the variables.  It is decided by counting: a variable is one more operand, and an operator
takes as many as it needs and leaves its result.

* `Postfix.map_length_run`: the count is the height of the stack, and it fails where the
  evaluation fails;
* `Postfix.exists_evaluate`, `Postfix.evaluate_of_lt`: the outcome of an evaluation by the count;
* `Postfix.exists_postorder`: tokens that count to one operand are the postorder of a formula.
-/
import TwoLevel.FirstFailure
import TwoLevel.Formula

namespace TwoLevel

/-- The number of operands that an operator takes. -/
def Operator.arity (o : Operator) : Nat :=
  if o.isUnary then 1 else 2

/-- Whether a token is a variable or an operator. -/
def Token.isSymbol : Token → Bool
  | .var _ | .op _ => true
  | _ => false

namespace Postfix

/-! ## 1. The count -/

/-- The number of operands after a list of tokens, or the fault of the first token that cannot be
applied. -/
def operands : Nat → List Token → Except ParseError Nat
  | count, [] => .ok count
  | count, .var _ :: ts => operands (count + 1) ts
  | count, .op o :: ts =>
    if count < o.arity then .error (.missingOperand o.symbol)
    else operands (count - o.arity + 1) ts
  | _, t :: _ => .error (.invalidToken t.text)

example : operands 0 [.var 'a', .var 'b', .op .not, .op .and] = .ok 1 := rfl

example : operands 0 [.var 'a', .op .and, .op .not] = .error (.missingOperand "&") := rfl

theorem operands_append (count : Nat) (ts us : List Token) :
    operands count (ts ++ us) =
      match operands count ts with
      | .ok n => operands n us
      | .error fault => .error fault := by
  induction ts generalizing count with
  | nil => rfl
  | cons t ts ih =>
    cases t with
    | var c => exact ih (count + 1)
    | op o =>
      rw [List.cons_append, operands, operands]
      split
      · rfl
      · exact ih _
    | leftParen | rightParen | unknown w => rfl

/-! ## 2. Evaluation by the count -/

variable {a : Assignment} {ts : List Token}

theorem map_length_applyOperator (o : Operator) (stack : List Bool) :
    (applyOperator o stack).map List.length =
      if stack.length < o.arity then .error (.parse (.missingOperand o.symbol))
      else .ok (stack.length - o.arity + 1) := by
  unfold applyOperator Operator.arity
  cases o.isUnary with
  | true =>
    cases stack with
    | nil => rfl
    | cons r rest => simp [Except.map]
  | false =>
    cases stack with
    | nil => rfl
    | cons r rest =>
      cases rest with
      | nil => rfl
      | cons l rest => simp [Except.map]

/-- **The count is the height of the stack.**  An evaluation fails where the count fails, and
otherwise leaves as many values as there are operands. -/
theorem map_length_run (h : ∀ c, Token.var c ∈ ts → ∃ v, a.get? c = some v) (stack : List Bool) :
    (run a stack ts).map List.length = (operands stack.length ts).mapError .parse := by
  induction ts generalizing stack with
  | nil => rfl
  | cons t ts ih =>
    have hts : ∀ c, Token.var c ∈ ts → ∃ v, a.get? c = some v :=
      fun c hc => h c (List.mem_cons_of_mem t hc)
    cases t with
    | var c =>
      obtain ⟨v, hv⟩ := h c (by simp)
      rw [run, step, hv, operands]
      exact ih hts (v :: stack)
    | op o =>
      have hop := map_length_applyOperator o stack
      rw [run, step, operands]
      split at hop
      · next hlt =>
        rw [if_pos hlt, map_eq_error_iff.mp hop]
        rfl
      · next hle =>
        obtain ⟨next, ho, hheight⟩ := map_eq_ok_iff.mp hop
        rw [if_neg hle, ho, ← hheight]
        exact ih hts next
    | leftParen | rightParen | unknown w => rfl

/-- A count that fails is the failure of the evaluation. -/
theorem evaluate_of_error (h : ∀ c, Token.var c ∈ ts → ∃ v, a.get? c = some v)
    {fault : ParseError} (hf : operands 0 ts = .error fault) :
    evaluate a ts = .error (.parse fault) := by
  have hrun : (run a [] ts).map List.length = .error (.parse fault) := by
    rw [map_length_run h, List.length_nil, hf]
    rfl
  rw [evaluate, map_eq_error_iff.mp hrun]

/-- A count that succeeds is the number of values that are left. -/
theorem exists_run (h : ∀ c, Token.var c ∈ ts → ∃ v, a.get? c = some v) {n : Nat}
    (hn : operands 0 ts = .ok n) : ∃ stack, run a [] ts = .ok stack ∧ stack.length = n := by
  have hrun : (run a [] ts).map List.length = .ok n := by
    rw [map_length_run h, List.length_nil, hn]
    rfl
  exact map_eq_ok_iff.mp hrun

/-- One operand is the value. -/
theorem exists_evaluate (h : ∀ c, Token.var c ∈ ts → ∃ v, a.get? c = some v)
    (hn : operands 0 ts = .ok 1) : ∃ v, evaluate a ts = .ok v := by
  obtain ⟨stack, hr, hlen⟩ := exists_run h hn
  obtain ⟨v, rfl⟩ := List.length_eq_one_iff.mp hlen
  exact ⟨v, by rw [evaluate, hr]; rfl⟩

/-- More than one operand is left over. -/
theorem evaluate_of_lt (h : ∀ c, Token.var c ∈ ts → ∃ v, a.get? c = some v) {n : Nat}
    (hn : operands 0 ts = .ok n) (hlt : 1 < n) :
    evaluate a ts = .error (.parse (.danglingOperands n)) := by
  obtain ⟨stack, hr, rfl⟩ := exists_run h hn
  rw [evaluate, hr]
  rcases stack with _ | ⟨v, _ | ⟨w, stack⟩⟩
  · exact absurd hlt (Nat.not_lt_zero 1)
  · exact absurd hlt (Nat.lt_irrefl 1)
  · rfl

/-! ## 3. What is counted -/

/-- Among variables and operators the count fails at the first operator that finds too few
operands. -/
theorem exists_of_operands_error {count : Nat} {fault : ParseError}
    (hts : ∀ t ∈ ts, t.isSymbol = true) (h : operands count ts = .error fault) :
    ∃ before o after n, ts = before ++ .op o :: after ∧ operands count before = .ok n ∧
      n < o.arity ∧ fault = .missingOperand o.symbol := by
  induction ts generalizing count with
  | nil => cases h
  | cons t ts ih =>
    have hrest : ∀ t ∈ ts, t.isSymbol = true := fun s hs => hts s (List.mem_cons_of_mem t hs)
    cases t with
    | var c =>
      obtain ⟨before, o, after, n, rfl, hn, hlt, hf⟩ := ih hrest h
      exact ⟨.var c :: before, o, after, n, rfl, hn, hlt, hf⟩
    | op o =>
      rw [operands] at h
      split at h
      · next hlt => exact ⟨[], o, ts, count, rfl, rfl, hlt, (Except.error.inj h).symm⟩
      · next hle =>
        obtain ⟨before, p, after, n, rfl, hn, hlt, hf⟩ := ih hrest h
        exact ⟨.op o :: before, p, after, n, rfl, by rw [operands, if_neg hle, hn], hlt, hf⟩
    | leftParen | rightParen | unknown w => cases hts _ List.mem_cons_self

/-- There is an operand as soon as there is a token. -/
theorem pos_of_operands {count n : Nat} (h : operands count ts = .ok n)
    (hpos : 0 < count ∨ ts ≠ []) : 0 < n := by
  induction ts generalizing count with
  | nil =>
    cases h
    simpa using hpos
  | cons t ts ih =>
    cases t with
    | var c => exact ih h (.inl (Nat.succ_pos count))
    | op o =>
      rw [operands] at h
      split at h
      · cases h
      · exact ih h (.inl (Nat.succ_pos _))
    | leftParen | rightParen | unknown w => cases h

end Postfix

/-! ## 4. Formulas on a stack -/

namespace Formula

/-- The postorders of the formulas of a stack, the lowest first. -/
def stackTokens : List Formula → List Token
  | [] => []
  | f :: fs => stackTokens fs ++ f.postorder

/-- **Tokens that can be counted build formulas.**  By induction on the tokens: an operator joins
the formulas on top into one. -/
theorem exists_stackTokens {fs : List Formula} {ts : List Token} {n : Nat}
    (h : Postfix.operands fs.length ts = .ok n) :
    ∃ gs : List Formula, gs.length = n ∧ stackTokens fs ++ ts = stackTokens gs := by
  induction ts generalizing fs with
  | nil =>
    cases h
    exact ⟨fs, rfl, List.append_nil _⟩
  | cons t ts ih =>
    cases t with
    | var c =>
      obtain ⟨gs, hlen, hgs⟩ := @ih (.var c :: fs) h
      exact ⟨gs, hlen, by simpa [stackTokens, postorder] using hgs⟩
    | op o =>
      rw [Postfix.operands] at h
      split at h
      · cases h
      · next hle =>
        cases ho : o.isUnary with
        | true =>
          obtain rfl : o = .not := of_decide_eq_true ho
          cases fs with
          | nil => simp [Operator.arity, ho] at hle
          | cons f fs =>
            obtain ⟨gs, hlen, hgs⟩ := @ih (.not f :: fs) (by simpa [Operator.arity, ho] using h)
            exact ⟨gs, hlen, by simpa [stackTokens, postorder] using hgs⟩
        | false =>
          rcases fs with _ | ⟨r, _ | ⟨l, fs⟩⟩
          · simp [Operator.arity, ho] at hle
          · simp [Operator.arity, ho] at hle
          · obtain ⟨gs, hlen, hgs⟩ := @ih (.connect o ho l r :: fs) (by
              simpa [Operator.arity, ho] using h)
            exact ⟨gs, hlen, by simpa [stackTokens, postorder] using hgs⟩
    | leftParen | rightParen | unknown w => cases h

/-- The names of a formula are the variables of its postorder, in order. -/
theorem filterMap_name?_postorder (f : Formula) : f.postorder.filterMap Token.name? = f.names := by
  induction f with
  | var name => rfl
  | not f ih => simp [postorder, names, ih, Token.name?]
  | connect o binary l r ihl ihr => simp [postorder, names, ihl, ihr, Token.name?]

end Formula

/-- Tokens that count to one operand are the postorder of a formula. -/
theorem Postfix.exists_postorder {ts : List Token} (h : operands 0 ts = .ok 1) :
    ∃ f : Formula, ts = f.postorder := by
  obtain ⟨gs, hlen, hgs⟩ := @Formula.exists_stackTokens [] _ _ h
  obtain ⟨f, rfl⟩ := List.length_eq_one_iff.mp hlen
  exact ⟨f, by simpa [Formula.stackTokens] using hgs⟩

end TwoLevel
