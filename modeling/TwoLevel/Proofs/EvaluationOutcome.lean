/-
# The value of any list of tokens

The evaluation of tokens in postfix order is defined on every list, and on every list its outcome
can be told without a stack.  Read from the left with the number of operands so far, the first
token that offends is the failure: a variable without value, an operator with too few operands, or
a token that is neither.  A list without such a token is empty, leaves operands over, or is the
postorder of one formula, whose value it has.

* `Postfix.evaluate_of_firstOffence`: the first token that offends is the failure;
* `Postfix.add_binaryCount_of_operands`: how many operands are left;
* `Formula.postorder_injective`: a list is the postorder of one formula at most;
* `Postfix.evaluate_outcome`: the outcome on every list.
-/
import Mathlib.Logic.ExistsUnique
import TwoLevel.Proofs.OperandCount
import TwoLevel.Proofs.TableValues

namespace TwoLevel

/-- Whether a token is an operator of two operands. -/
def Token.isBinary : Token → Bool
  | .op o => !o.isUnary
  | _ => false

/-! ## 1. Formulas are told apart by their postorders -/

namespace Formula

/-- The formulas on a stack after a token, if it finds its operands among them. -/
def shift? : List Formula → Token → Option (List Formula)
  | fs, .var c => some (.var c :: fs)
  | fs, .op o =>
    if binary : o.isUnary = false then
      match fs with
      | r :: l :: rest => some (.connect o binary l r :: rest)
      | _ => none
    else
      match fs with
      | f :: rest => some (.not f :: rest)
      | [] => none
  | _, _ => none

/-- The formulas on a stack after a list of tokens. -/
def rebuild? : List Formula → List Token → Option (List Formula)
  | fs, [] => some fs
  | fs, t :: ts => (shift? fs t).bind (rebuild? · ts)

/-- **The postorder of a formula builds it again**, whatever the stack and the tokens after it. -/
theorem rebuild?_postorder_append (f : Formula) (fs : List Formula) (rest : List Token) :
    rebuild? fs (f.postorder ++ rest) = rebuild? (f :: fs) rest := by
  induction f generalizing fs rest with
  | var name => rfl
  | not f ih =>
    rw [postorder, List.append_assoc, ih]
    rfl
  | connect o binary l r ihl ihr =>
    rw [postorder, List.append_assoc, List.append_assoc, ihl, ihr]
    simp [rebuild?, shift?, binary]

theorem rebuild?_postorder (f : Formula) : rebuild? [] f.postorder = some [f] := by
  simpa [rebuild?] using rebuild?_postorder_append f [] []

theorem postorder_injective {f g : Formula} (h : f.postorder = g.postorder) : f = g := by
  have hread := congrArg (rebuild? []) h
  rw [rebuild?_postorder, rebuild?_postorder] at hread
  exact List.singleton_inj.mp (Option.some.inj hread)

end Formula

namespace Postfix

variable {a : Assignment} {t : Token} {ts : List Token} {error : Error} {count n : Nat}

/-! ## 2. The first token that offends -/

/-- The number of operands after a token: a variable is one more, and an operator of two operands
leaves one less. -/
def countAfter (count : Nat) : Token → Nat
  | .var _ => count + 1
  | .op o => if o.isUnary then count else count - 1
  | _ => count

/-- The failure of a token that offends when there are so many operands. -/
def offence? (a : Assignment) (count : Nat) : Token → Option Error
  | .var c => if (a.get? c).isSome then none else some (.unassignedVariable c)
  | .op o => if count < o.arity then some (.parse (.missingOperand o.symbol)) else none
  | t => some (.parse (.invalidToken t.text))

/-- The number of operands after a list of tokens, or the failure of the first that offends. -/
def scan (a : Assignment) : Nat → List Token → Except Error Nat
  | count, [] => .ok count
  | count, t :: ts =>
    match offence? a count t with
    | some error => .error error
    | none => scan a (countAfter count t) ts

/-- Whether the first token that offends fails in a given way. -/
def FirstOffence (a : Assignment) (ts : List Token) (error : Error) : Prop :=
  ∃ before t after count, ts = before ++ t :: after ∧ scan a 0 before = .ok count ∧
    offence? a count t = some error

theorem scan_append (count : Nat) (ts us : List Token) :
    scan a count (ts ++ us) =
      match scan a count ts with
      | .ok n => scan a n us
      | .error error => .error error := by
  induction ts generalizing count with
  | nil => rfl
  | cons t ts ih =>
    rw [List.cons_append, scan, scan]
    cases offence? a count t with
    | none => exact ih _
    | some error => rfl

theorem exists_of_scan_error (h : scan a count ts = .error error) :
    ∃ before t after n, ts = before ++ t :: after ∧ scan a count before = .ok n ∧
      offence? a n t = some error := by
  induction ts generalizing count with
  | nil => cases h
  | cons t ts ih =>
    rw [scan] at h
    cases ht : offence? a count t with
    | some e =>
      rw [ht] at h
      cases h
      exact ⟨[], t, ts, count, rfl, rfl, ht⟩
    | none =>
      rw [ht] at h
      obtain ⟨before, u, after, n, rfl, hn, hu⟩ := ih h
      exact ⟨t :: before, u, after, n, rfl, by rw [scan, ht]; exact hn, hu⟩

theorem firstOffence_iff : FirstOffence a ts error ↔ scan a 0 ts = .error error := by
  constructor
  · rintro ⟨before, t, after, n, rfl, hn, ht⟩
    rw [scan_append, hn]
    simp only [scan, ht]
  · exact exists_of_scan_error

/-- Where no token offends, the operands are there and the variables have values. -/
theorem of_scan (h : scan a count ts = .ok n) :
    operands count ts = .ok n ∧ ∀ c, Token.var c ∈ ts → ∃ v, a.get? c = some v := by
  induction ts generalizing count with
  | nil =>
    cases h
    exact ⟨rfl, by simp⟩
  | cons t ts ih =>
    rw [scan] at h
    cases ht : offence? a count t with
    | some e =>
      rw [ht] at h
      cases h
    | none =>
      rw [ht] at h
      obtain ⟨hcount, hvars⟩ := ih h
      cases t with
      | var c =>
        have hc : a.get? c ≠ none := by simpa [offence?] using ht
        refine ⟨hcount, fun d hd => ?_⟩
        rcases List.mem_cons.mp hd with hd | hd
        · exact Token.var.inj hd ▸ Option.ne_none_iff_exists'.mp hc
        · exact hvars d hd
      | op o =>
        have ho : ¬ count < o.arity := by simpa [offence?] using ht
        have hafter : count - o.arity + 1 = countAfter count (.op o) := by
          unfold countAfter Operator.arity at *
          split at ho <;> simp_all <;> omega
        refine ⟨by rw [operands, if_neg ho, hafter, hcount], fun d hd => hvars d ?_⟩
        simpa using hd
      | leftParen | rightParen | unknown w => cases ht

/-- A token that offends fails on every stack with so many values. -/
theorem step_of_offence {stack : List Bool} (h : offence? a stack.length t = some error) :
    step a stack t = .error error := by
  cases t with
  | var c =>
    cases hc : a.get? c with
    | some v => simp [offence?, hc] at h
    | none =>
      have he : Error.unassignedVariable c = error := by simpa [offence?, hc] using h
      rw [step, hc, he]
  | op o =>
    have hop := map_length_applyOperator o stack
    rw [offence?] at h
    split at h
    · next hlt =>
      rw [if_pos hlt, Option.some.inj h] at hop
      exact map_eq_error_iff.mp hop
    · cases h
  | leftParen | rightParen | unknown w => exact congrArg Except.error (Option.some.inj h)

/-- **The first token that offends is the failure.**  The tokens before it leave as many values
as they count operands. -/
theorem evaluate_of_firstOffence (h : FirstOffence a ts error) :
    evaluate a ts = .error error := by
  obtain ⟨before, t, after, n, rfl, hn, ht⟩ := h
  obtain ⟨hcount, hvars⟩ := of_scan hn
  obtain ⟨stack, hrun, rfl⟩ := exists_run hvars hcount
  rw [evaluate, run_append, hrun]
  simp only [run, step_of_offence ht]

/-! ## 3. The operands that are left -/

/-- The number of variables among tokens, counting repetitions. -/
def variableCount (ts : List Token) : Nat :=
  (ts.filterMap Token.name?).length

/-- The number of operators of two operands among tokens. -/
def binaryCount (ts : List Token) : Nat :=
  ts.countP Token.isBinary

/-- Each variable is one operand more, and each operator of two operands leaves one less. -/
theorem add_binaryCount_of_operands (h : operands count ts = .ok n) :
    n + binaryCount ts = count + variableCount ts := by
  induction ts generalizing count with
  | nil =>
    cases h
    rfl
  | cons t ts ih =>
    cases t with
    | var c =>
      have hvar : variableCount (.var c :: ts) = variableCount ts + 1 := rfl
      have hbinary : binaryCount (.var c :: ts) = binaryCount ts := List.countP_cons
      have hrest := ih h
      omega
    | op o =>
      have hvar : variableCount (.op o :: ts) = variableCount ts := rfl
      have hbinary : binaryCount (.op o :: ts) = binaryCount ts + if !o.isUnary then 1 else 0 :=
        List.countP_cons
      rw [operands] at h
      split at h
      · cases h
      · next hle =>
        have hrest := ih h
        rw [Operator.arity] at hle hrest
        cases ho : o.isUnary <;> simp [ho] at hle hrest hbinary <;> omega
    | leftParen | rightParen | unknown w => cases h

theorem eq_sub_of_scan (h : scan a 0 ts = .ok n) : n = variableCount ts - binaryCount ts := by
  have hcount := add_binaryCount_of_operands (of_scan h).1
  omega

theorem eq_zero_iff_of_scan (h : scan a 0 ts = .ok n) : n = 0 ↔ ts = [] := by
  constructor
  · rintro rfl
    refine Classical.byContradiction fun hnil => ?_
    exact Nat.lt_irrefl 0 (pos_of_operands (of_scan h).1 (.inr hnil))
  · rintro rfl
    cases h
    rfl

/-- What becomes of the operands at the end, apart from the value. -/
def ending : Nat → Except Error Unit
  | 0 => .error (.parse .emptyExpression)
  | 1 => .ok ()
  | n => .error (.parse (.danglingOperands n))

theorem ending_eq_empty_iff : ending n = .error (.parse .emptyExpression) ↔ n = 0 := by
  match n with
  | 0 | 1 | n + 2 => simp [ending]

theorem ending_eq_ok_iff {u : Unit} : ending n = .ok u ↔ n = 1 := by
  match n with
  | 0 | 1 | n + 2 => simp [ending]

theorem ending_of_lt (h : 1 < n) : ending n = .error (.parse (.danglingOperands n)) := by
  match n with
  | 0 | 1 => omega
  | n + 2 => rfl

/-- **The operands that the scan counts decide the rest**, apart from the value. -/
theorem map_evaluate_of_scan (h : scan a 0 ts = .ok n) :
    (evaluate a ts).map (fun _ => ()) = ending n := by
  obtain ⟨hcount, hvars⟩ := of_scan h
  match n with
  | 0 =>
    rw [(eq_zero_iff_of_scan h).mp rfl]
    rfl
  | 1 =>
    obtain ⟨b, hb⟩ := exists_evaluate hvars hcount
    rw [hb]
    rfl
  | n + 2 =>
    rw [evaluate_of_lt hvars hcount (by omega)]
    rfl

theorem exists_evaluate_iff_of_scan (h : scan a 0 ts = .ok n) :
    (∃ b, evaluate a ts = .ok b) ↔ n = 1 := by
  rw [← @ending_eq_ok_iff n (), ← map_evaluate_of_scan h, map_eq_ok_iff]
  simp only [and_true]

/-- Assignments of the same names are scanned alike. -/
theorem scan_congr {b : Assignment} (h : ∀ c, (a.get? c).isSome = (b.get? c).isSome)
    (count : Nat) (ts : List Token) : scan a count ts = scan b count ts := by
  induction ts generalizing count with
  | nil => rfl
  | cons t ts ih =>
    have ht : offence? a count t = offence? b count t := by
      cases t with
      | var c => rw [offence?, offence?, h c]
      | op o | leftParen | rightParen | unknown w => rfl
    rw [scan, scan, ht]
    simp only [ih]

/-- Assignments of the same names lead to the same outcome, apart from the value. -/
theorem map_evaluate_congr {b : Assignment} (h : ∀ c, (a.get? c).isSome = (b.get? c).isSome)
    (ts : List Token) :
    (evaluate a ts).map (fun _ => ()) = (evaluate b ts).map (fun _ => ()) := by
  have hscan := scan_congr h 0 ts
  cases ha : scan a 0 ts with
  | ok n => rw [map_evaluate_of_scan ha, map_evaluate_of_scan (hscan ▸ ha)]
  | error error =>
    rw [evaluate_of_firstOffence (firstOffence_iff.mpr ha),
      evaluate_of_firstOffence (firstOffence_iff.mpr (hscan ▸ ha))]

/-- The postorder of a formula has its value where no variable is without one. -/
theorem evaluate_of_scan_postorder {f : Formula} (h : scan a 0 f.postorder = .ok n) :
    evaluate a f.postorder = .ok (f.value a.value) := by
  refine Formula.evaluate_postorder fun c hc => ?_
  have hmem : c ∈ f.postorder.filterMap Token.name? := f.filterMap_name?_postorder ▸ hc
  obtain ⟨t, ht, htc⟩ := List.mem_filterMap.mp hmem
  obtain ⟨v, hv⟩ := (of_scan h).2 c (Token.name?_eq_some_iff.mp htc ▸ ht)
  rw [Assignment.value, hv]
  rfl

/-! ## 4. The outcome -/

/-- **The outcome of an evaluation.**  The first token that offends is the failure.  If there is
none, an empty list has no value, operands that are left over are counted, and every other list
has a value; the lists with a value are those that are the postorder of a formula, which is the
only one and has this value.  Which of these happens depends on the names that have a value and
not on the values. -/
theorem evaluate_outcome (a : Assignment) (ts : List Token) :
    (∀ error, FirstOffence a ts error → evaluate a ts = .error error) ∧
    ((¬ ∃ error, FirstOffence a ts error) →
      (evaluate a ts = .error (.parse .emptyExpression) ↔ ts = []) ∧
      (1 < variableCount ts - binaryCount ts → evaluate a ts
        = .error (.parse (.danglingOperands (variableCount ts - binaryCount ts)))) ∧
      (ts ≠ [] → ¬ 1 < variableCount ts - binaryCount ts → ∃ b, evaluate a ts = .ok b) ∧
      ((∃ b, evaluate a ts = .ok b) ↔ ∃! f : Formula, ts = f.postorder) ∧
      ∀ f : Formula, ts = f.postorder → evaluate a ts = .ok (f.value a.value)) ∧
    ∀ b : Assignment, (∀ c, (a.get? c).isSome = (b.get? c).isSome) →
      (∃ v w, evaluate a ts = .ok v ∧ evaluate b ts = .ok w) ∨
        ∃ error, evaluate a ts = .error error ∧ evaluate b ts = .error error := by
  refine ⟨fun error => evaluate_of_firstOffence, fun hnone => ?_, fun b hnames => ?_⟩
  · obtain ⟨n, hn⟩ : ∃ n, scan a 0 ts = .ok n := by
      cases hscan : scan a 0 ts with
      | ok n => exact ⟨n, rfl⟩
      | error error => exact absurd ⟨error, firstOffence_iff.mpr hscan⟩ hnone
    have hend := map_evaluate_of_scan hn
    have hvalue : ∀ f : Formula, ts = f.postorder → evaluate a ts = .ok (f.value a.value) := by
      rintro f rfl
      exact evaluate_of_scan_postorder hn
    rw [← eq_sub_of_scan hn]
    refine ⟨?_, fun hlt => ?_, fun hnil hle => ?_, ⟨fun hb => ?_, ?_⟩, hvalue⟩
    · rw [← map_eq_error_iff, hend, ending_eq_empty_iff, eq_zero_iff_of_scan hn]
    · rw [← map_eq_error_iff, hend, ending_of_lt hlt]
    · have hpos : n ≠ 0 := mt (eq_zero_iff_of_scan hn).mp hnil
      exact (exists_evaluate_iff_of_scan hn).mpr (by omega)
    · obtain rfl := (exists_evaluate_iff_of_scan hn).mp hb
      obtain ⟨f, hf⟩ := exists_postorder (of_scan hn).1
      exact ⟨f, hf, fun g hg => Formula.postorder_injective (hg.symm.trans hf)⟩
    · rintro ⟨f, hf, -⟩
      exact ⟨_, hvalue f hf⟩
  · have hsame := map_evaluate_congr hnames ts
    cases ha : evaluate a ts with
    | error error =>
      rw [ha] at hsame
      exact .inr ⟨error, rfl, map_eq_error_iff.mp hsame.symm⟩
    | ok v =>
      rw [ha] at hsame
      obtain ⟨w, hw, -⟩ := map_eq_ok_iff.mp hsame.symm
      exact .inl ⟨v, w, rfl, hw⟩

/-- Five lists over the value of `a` alone: the operator without its operands comes before the
parenthesis, the variable without value before the operator, two operands are left, nothing is
there at all, and `a -> ! a` has the value that `! a` has. -/
theorem evaluate_outcome_of_five_lists :
    evaluate (.ofPairs [('a', true)]) [.var 'a', .op .and, .leftParen]
        = .error (.parse (.missingOperand "&")) ∧
      evaluate (.ofPairs [('a', true)]) [.var 'a', .var 'b', .op .iff, .op .or]
        = .error (.unassignedVariable 'b') ∧
      evaluate (.ofPairs [('a', true)]) [.var 'a', .var 'a', .var 'a', .op .or]
        = .error (.parse (.danglingOperands 2)) ∧
      evaluate (.ofPairs [('a', true)]) [] = .error (.parse .emptyExpression) ∧
      evaluate (.ofPairs [('a', true)]) [.var 'a', .var 'a', .op .not, .op .implies]
        = .ok false := by
  have hnone : ∀ {ts n}, scan (.ofPairs [('a', true)]) 0 ts = .ok n →
      ¬ ∃ error, FirstOffence (.ofPairs [('a', true)]) ts error := by
    rintro ts n hn ⟨error, h⟩
    cases hn.symm.trans (firstOffence_iff.mp h)
  refine ⟨(evaluate_outcome _ _).1 _ (firstOffence_iff.mpr rfl),
    (evaluate_outcome _ _).1 _ (firstOffence_iff.mpr rfl),
    ((evaluate_outcome _ _).2.1 (hnone rfl)).2.1 (by decide),
    ((evaluate_outcome _ _).2.1 (hnone rfl)).1.mpr rfl, ?_⟩
  exact ((evaluate_outcome _ _).2.1 (hnone rfl)).2.2.2.2
    (.connect .implies rfl (.var 'a') (.not (.var 'a'))) rfl

end Postfix
end TwoLevel
