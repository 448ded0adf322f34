/-
# What the conversion to postfix order does

The conversion takes one token at a time (`Postfix.Places`): it puts some tokens out and leaves
another stack.  What is left on the stack goes out at the end.

* `Postfix.convert_cons_eq_ok_iff`, `Postfix.convert_nil_eq_ok_iff`: a conversion is a sequence
  of such steps;
* `Postfix.convert_eq_error_iff`: it fails exactly by a word without meaning or by a parenthesis
  without partner;
* `Postfix.perm_of_convert`, `Postfix.filterMap_name?_of_convert`: variables and operators are
  neither lost nor added, and the variables keep their order.
-/
import TwoLevel.Postfix.Conversion
import TwoLevel.Proofs.OperandCount

namespace TwoLevel
namespace Postfix

variable {stack rest : List Waiting} {t : Token} {ts out now : List Token}

/-! ## 1. Letting operators go -/

/-- Operators are let go from the top. -/
theorem append_releaseFor (o : Operator) (stack : List Waiting) :
    (releaseFor o stack).1.map .op ++ (releaseFor o stack).2 = stack := by
  induction stack with
  | nil => rfl
  | cons w stack ih =>
    cases w with
    | paren => rfl
    | op top =>
      rw [releaseFor]
      split
      · exact congrArg (Waiting.op top :: ·) ih
      · rfl

theorem releaseToParen?_eq_some_iff {ops : List Operator} :
    releaseToParen? stack = some (ops, rest) ↔ stack = ops.map .op ++ .paren :: rest := by
  induction stack generalizing ops with
  | nil => simp [releaseToParen?]
  | cons w stack ih =>
    cases w with
    | paren => cases ops <;> simp [releaseToParen?, eq_comm]
    | op o =>
      rw [releaseToParen?, Option.map_eq_some_iff]
      constructor
      · rintro ⟨⟨ops', rest'⟩, h, e⟩
        cases e
        rw [ih.mp h]
        rfl
      · intro h
        cases ops with
        | nil => cases h
        | cons p ops =>
          obtain ⟨e, hstack⟩ := List.cons.inj h
          cases e
          exact ⟨(ops, rest), ih.mpr hstack, rfl⟩

theorem releaseToParen?_eq_none_iff : releaseToParen? stack = none ↔ Waiting.paren ∉ stack := by
  induction stack with
  | nil => simp [releaseToParen?]
  | cons w stack ih => cases w <;> simp [releaseToParen?, ih]

theorem releaseAll?_eq_some_iff {ops : List Operator} :
    releaseAll? stack = some ops ↔ stack = ops.map .op := by
  induction stack generalizing ops with
  | nil => cases ops <;> simp [releaseAll?]
  | cons w stack ih =>
    cases w with
    | paren => cases ops <;> simp [releaseAll?]
    | op o =>
      rw [releaseAll?, Option.map_eq_some_iff]
      constructor
      · rintro ⟨ops', h, rfl⟩
        rw [ih.mp h]
        rfl
      · intro h
        cases ops with
        | nil => cases h
        | cons p ops =>
          obtain ⟨e, hstack⟩ := List.cons.inj h
          cases e
          exact ⟨ops, ih.mpr hstack, rfl⟩

theorem releaseAll?_eq_none_iff : releaseAll? stack = none ↔ Waiting.paren ∈ stack := by
  induction stack with
  | nil => simp [releaseAll?]
  | cons w stack ih => cases w <;> simp [releaseAll?, ih]

/-! ## 2. One step -/

/-- What a token puts out, and the stack that it leaves. -/
inductive Places : List Waiting → Token → List Token → List Waiting → Prop where
  | var {stack : List Waiting} (c : Char) : Places stack (.var c) [.var c] stack
  | op {stack : List Waiting} (o : Operator) :
    Places stack (.op o) ((releaseFor o stack).1.map .op) (.op o :: (releaseFor o stack).2)
  | leftParen {stack : List Waiting} : Places stack .leftParen [] (.paren :: stack)
  | rightParen {stack : List Waiting} (ops : List Operator) :
    Places (ops.map .op ++ .paren :: stack) .rightParen (ops.map .op) stack

theorem map_append_eq_ok_iff {r : Except ParseError (List Token)} :
    r.map (now ++ ·) = .ok out ↔ ∃ later, r = .ok later ∧ out = now ++ later := by
  cases r <;> simp [Except.map, eq_comm]

/-- A token that is placed is followed by the conversion under the stack that it leaves. -/
theorem Places.convert_cons (h : Places stack t now rest) (ts : List Token) :
    convert stack (t :: ts) = (convert rest ts).map (now ++ ·) := by
  cases h with
  | var c => rfl
  | op o => rfl
  | leftParen =>
    rw [convert]
    cases convert (.paren :: stack) ts <;> rfl
  | rightParen ops => rw [convert, releaseToParen?_eq_some_iff.mpr rfl]

/-- **A conversion that succeeds goes on from one token to the next.** -/
theorem convert_cons_eq_ok_iff :
    convert stack (t :: ts) = .ok out ↔
      ∃ now rest later, Places stack t now rest ∧ convert rest ts = .ok later ∧
        out = now ++ later := by
  have placed : convert stack (t :: ts) = .ok out → ∃ now rest, Places stack t now rest := by
    intro h
    cases t with
    | var c => exact ⟨_, _, .var c⟩
    | op o => exact ⟨_, _, .op o⟩
    | leftParen => exact ⟨_, _, .leftParen⟩
    | rightParen =>
      rw [convert] at h
      split at h
      · next ops rest hrel =>
        obtain rfl := releaseToParen?_eq_some_iff.mp hrel
        exact ⟨_, _, .rightParen ops⟩
      · cases h
    | unknown w => cases h
  constructor
  · intro h
    obtain ⟨now, rest, hp⟩ := placed h
    obtain ⟨later, hl, ho⟩ := map_append_eq_ok_iff.mp ((hp.convert_cons ts).symm.trans h)
    exact ⟨now, rest, later, hp, hl, ho⟩
  · rintro ⟨now, rest, later, hp, hl, ho⟩
    exact (hp.convert_cons ts).trans (map_append_eq_ok_iff.mpr ⟨later, hl, ho⟩)

/-- At the end the operators that are left on the stack go out. -/
theorem convert_nil_eq_ok_iff :
    convert stack [] = .ok out ↔
      ∃ ops : List Operator, stack = ops.map .op ∧ out = ops.map .op := by
  rw [convert]
  cases h : releaseAll? stack with
  | none =>
    have hmem := releaseAll?_eq_none_iff.mp h
    simp only [reduceCtorEq, false_iff]
    rintro ⟨ops, rfl, -⟩
    simp at hmem
  | some ops =>
    obtain rfl := releaseAll?_eq_some_iff.mp h
    constructor
    · intro ho
      exact ⟨ops, rfl, (Except.ok.inj ho).symm⟩
    · rintro ⟨ops', hops, rfl⟩
      rw [(List.map_inj_right fun _ _ e => Waiting.op.inj e).mp hops]

/-! ## 3. Failures -/

/-- The fault of the first token that cannot be placed when so many parentheses are open, or of
a parenthesis that is still open at the end. -/
def fault? : Nat → List Token → Option ParseError
  | 0, [] => none
  | _ + 1, [] => some .mismatchedParentheses
  | opened, .leftParen :: ts => fault? (opened + 1) ts
  | 0, .rightParen :: _ => some .mismatchedParentheses
  | opened + 1, .rightParen :: ts => fault? opened ts
  | _, .unknown word :: _ => some (.invalidToken word)
  | opened, .var _ :: ts => fault? opened ts
  | opened, .op _ :: ts => fault? opened ts

theorem count_paren_releaseFor (o : Operator) (stack : List Waiting) :
    (releaseFor o stack).2.count .paren = stack.count .paren := by
  have h := congrArg (List.count .paren) (append_releaseFor o stack)
  rwa [List.count_append, List.count_eq_zero.mpr (by simp), Nat.zero_add] at h

/-- **The conversion fails exactly by a token that cannot be placed.**  Only the number of open
parentheses counts, and the operators on the stack do not matter. -/
theorem convert_eq_error_iff {fault : ParseError} :
    convert stack ts = .error fault ↔ fault? (stack.count .paren) ts = some fault := by
  have hmap : ∀ {now : List Token} {r : Except ParseError (List Token)},
      r.map (now ++ ·) = .error fault ↔ r = .error fault := by
    intro now r
    cases r <;> simp [Except.map]
  induction ts generalizing stack with
  | nil =>
    rw [convert]
    cases h : releaseAll? stack with
    | none =>
      have hpos := List.count_pos_iff.mpr (releaseAll?_eq_none_iff.mp h)
      obtain ⟨n, hn⟩ := Nat.exists_eq_succ_of_ne_zero (Nat.pos_iff_ne_zero.mp hpos)
      simp [hn, fault?]
    | some ops =>
      have hzero : stack.count .paren = 0 := by
        rw [releaseAll?_eq_some_iff.mp h, List.count_eq_zero]
        simp
      simp [hzero, fault?]
  | cons t ts ih =>
    cases t with
    | var c =>
      rw [convert, fault?]
      exact (@hmap [.var c] _).trans ih
    | op o =>
      have hcount : (Waiting.op o :: (releaseFor o stack).2).count .paren = stack.count .paren := by
        rw [List.count_cons_of_ne (by simp), count_paren_releaseFor]
      rw [convert, fault?, ← hcount]
      exact hmap.trans ih
    | leftParen =>
      rw [convert, fault?, ← List.count_cons_self]
      exact ih
    | rightParen =>
      rw [convert]
      cases h : releaseToParen? stack with
      | none =>
        rw [List.count_eq_zero.mpr (releaseToParen?_eq_none_iff.mp h), fault?]
        simp
      | some released =>
        obtain ⟨ops, rest⟩ := released
        have hcount : stack.count .paren = rest.count .paren + 1 := by
          rw [releaseToParen?_eq_some_iff.mp h, List.count_append,
            List.count_eq_zero.mpr (by simp), List.count_cons_self, Nat.zero_add]
        rw [hcount, fault?]
        exact hmap.trans ih
    | unknown w => simp [convert, fault?]

theorem exists_ofInfix_iff : (∃ out, ofInfix ts = .ok out) ↔ fault? 0 ts = none := by
  have herror := fun fault => @convert_eq_error_iff [] ts fault
  rw [ofInfix]
  cases h : convert [] ts with
  | ok out =>
    rw [h] at herror
    have hnone : ∀ fault, fault? 0 ts ≠ some fault := by
      intro fault hf
      cases (herror fault).mpr hf
    simpa using Option.eq_none_iff_forall_ne_some.mpr hnone
  | error fault =>
    have hsome : fault? 0 ts = some fault := (herror fault).mp h
    simp [hsome]

/-- A failure is a word without meaning or a parenthesis without partner. -/
theorem fault?_eq_some {opened : Nat} {fault : ParseError} (h : fault? opened ts = some fault) :
    (∃ word, fault = .invalidToken word) ∨ fault = .mismatchedParentheses := by
  fun_induction fault? opened ts with
  | case1 => cases h
  | case2 => exact .inr (Option.some.inj h).symm
  | case3 _ _ ih => exact ih h
  | case4 => exact .inr (Option.some.inj h).symm
  | case5 _ _ ih => exact ih h
  | case6 => exact .inl ⟨_, (Option.some.inj h).symm⟩
  | case7 _ _ _ ih => exact ih h
  | case8 _ _ _ ih => exact ih h

/-! ## 4. Nothing is lost or added -/

/-- The operators on a stack. -/
def waitingTokens (stack : List Waiting) : List Token :=
  stack.filterMap fun
    | .op o => some (.op o)
    | .paren => none

@[simp] theorem waitingTokens_map_op (ops : List Operator) :
    waitingTokens (ops.map .op) = ops.map .op := by
  rw [waitingTokens, List.filterMap_map]
  exact congrFun List.filterMap_eq_map ops

@[simp] theorem waitingTokens_append (stack rest : List Waiting) :
    waitingTokens (stack ++ rest) = waitingTokens stack ++ waitingTokens rest :=
  List.filterMap_append

/-- A step only moves operators between the stack and the output, apart from its own token. -/
theorem Places.perm (h : Places stack t now rest) :
    (now ++ waitingTokens rest).Perm (waitingTokens stack ++ [t].filter Token.isSymbol) := by
  cases h with
  | var c => exact List.perm_append_comm
  | op o =>
    have hstack := congrArg waitingTokens (append_releaseFor o stack)
    rw [waitingTokens_append, waitingTokens_map_op] at hstack
    rw [← hstack, List.append_assoc]
    exact (List.perm_append_singleton _ _).symm.append_left _
  | leftParen => simp [waitingTokens, Token.isSymbol]
  | rightParen ops =>
    have hparen : waitingTokens (.paren :: rest) = waitingTokens rest := rfl
    simp [Token.isSymbol, hparen]

/-- **Variables and operators are neither lost nor added.** -/
theorem perm_of_convert (h : convert stack ts = .ok out) :
    out.Perm (waitingTokens stack ++ ts.filter Token.isSymbol) := by
  induction ts generalizing stack out with
  | nil =>
    obtain ⟨ops, rfl, rfl⟩ := convert_nil_eq_ok_iff.mp h
    simp
  | cons t ts ih =>
    obtain ⟨now, rest, later, hp, hl, rfl⟩ := convert_cons_eq_ok_iff.mp h
    have hcons : (t :: ts).filter Token.isSymbol
        = [t].filter Token.isSymbol ++ ts.filter Token.isSymbol :=
      List.filter_append [t] ts
    have hnow : (now ++ later).Perm (now ++ waitingTokens rest ++ ts.filter Token.isSymbol) := by
      rw [List.append_assoc]
      exact (ih hl).append_left now
    rw [hcons, ← List.append_assoc]
    exact hnow.trans (hp.perm.append_right _)

/-- The variables keep their order. -/
theorem filterMap_name?_of_convert (h : convert stack ts = .ok out) :
    out.filterMap Token.name? = ts.filterMap Token.name? := by
  have hops : ∀ ops : List Operator, (ops.map Token.op).filterMap Token.name? = [] := by
    simp [List.filterMap_map, Function.comp_def, Token.name?]
  induction ts generalizing stack out with
  | nil =>
    obtain ⟨ops, -, rfl⟩ := convert_nil_eq_ok_iff.mp h
    exact hops ops
  | cons t ts ih =>
    obtain ⟨now, rest, later, hp, hl, rfl⟩ := convert_cons_eq_ok_iff.mp h
    rw [List.filterMap_append, ih hl]
    cases hp with
    | var c => rfl
    | op o => rw [hops]; rfl
    | leftParen => rfl
    | rightParen ops => rw [hops]; rfl

/-- Only variables and operators are put out. -/
theorem isSymbol_of_ofInfix (h : ofInfix ts = .ok out) : ∀ t ∈ out, t.isSymbol = true := by
  intro t ht
  have hmem := (perm_of_convert h).mem_iff.mp ht
  exact (List.mem_filter.mp (by simpa [waitingTokens] using hmem)).2

end Postfix
end TwoLevel
