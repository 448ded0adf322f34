/-
# The grammar of expressions

An expression is written after an unambiguous grammar with one nonterminal for each level of
precedence.  Equivalence and implication group to the right, disjunction and conjunction to the
left:

    E0 ::= E1 | E1 ~ E0
    E1 ::= E2 | E2 -> E1
    E2 ::= E3 | E2 '|' E3
    E3 ::= E4 | E3 & E4
    E4 ::= variable | ! E4 | ( E0 )

The conversion to postfix order knows nothing of these rules; it compares two operators at a
time.  This file proves that it follows them.

* `Derivation.exists_reads`: what is read of a tree is its postorder, up to some operators that
  are left on the stack and bind at least as tightly as the level of the tree;
* `Derivation.ofInfix_tokens`: the conversion of a tree is its postorder;
* `Derivation.evaluate_postorder`: the evaluation of the postorder is the value of the tree.
-/
import TwoLevel.Formula
import TwoLevel.Postfix.Conversion

namespace TwoLevel

/-! ## 1. Derivation trees -/

/-- A derivation tree of the grammar from the nonterminal of a level. -/
inductive Derivation : Nat → Type where
  /-- A level stands for the next tighter one. -/
  | chain {level : Nat} (h : level < 4) (d : Derivation (level + 1)) : Derivation level
  | iff (l : Derivation 1) (r : Derivation 0) : Derivation 0
  | implies (l : Derivation 2) (r : Derivation 1) : Derivation 1
  | or (l : Derivation 2) (r : Derivation 3) : Derivation 2
  | and (l : Derivation 3) (r : Derivation 4) : Derivation 3
  | var (name : Char) (h : Token.isVariable name = true) : Derivation 4
  | not (d : Derivation 4) : Derivation 4
  | paren (d : Derivation 0) : Derivation 4

namespace Derivation

variable {level : Nat}

/-- The tokens that a tree yields, from left to right. -/
def tokens {level : Nat} : Derivation level → List Token
  | .chain _ d => d.tokens
  | .iff l r => l.tokens ++ .op .iff :: r.tokens
  | .implies l r => l.tokens ++ .op .implies :: r.tokens
  | .or l r => l.tokens ++ .op .or :: r.tokens
  | .and l r => l.tokens ++ .op .and :: r.tokens
  | .var name _ => [.var name]
  | .not d => .op .not :: d.tokens
  | .paren d => .leftParen :: (d.tokens ++ [.rightParen])

/-- The variables and operators of a tree in postorder; parentheses are dropped. -/
def postorder {level : Nat} : Derivation level → List Token
  | .chain _ d => d.postorder
  | .iff l r => l.postorder ++ r.postorder ++ [.op .iff]
  | .implies l r => l.postorder ++ r.postorder ++ [.op .implies]
  | .or l r => l.postorder ++ r.postorder ++ [.op .or]
  | .and l r => l.postorder ++ r.postorder ++ [.op .and]
  | .var name _ => [.var name]
  | .not d => d.postorder ++ [.op .not]
  | .paren d => d.postorder

/-- The value of a tree for values of the variables. -/
def value (v : Char → Bool) {level : Nat} : Derivation level → Bool
  | .chain _ d => d.value v
  | .iff l r => l.value v == r.value v
  | .implies l r => !l.value v || r.value v
  | .or l r => l.value v || r.value v
  | .and l r => l.value v && r.value v
  | .var name _ => v name
  | .not d => !d.value v
  | .paren d => d.value v

/-! ## 2. What an operator finds on the stack -/

/-- The level of the left operand of a binary operator. -/
def leftLevel (o : Operator) : Nat :=
  if o.leftAssociative then o.precedence else o.precedence + 1

/-- The level of the right operand of an operator. -/
def rightLevel (o : Operator) : Nat :=
  if o.leftAssociative then o.precedence + 1 else o.precedence

theorem precedence_le_leftLevel (o : Operator) : o.precedence ≤ leftLevel o := by
  cases o <;> decide

theorem precedence_le_rightLevel (o : Operator) : o.precedence ≤ rightLevel o := by
  cases o <;> decide

/-- An operator yields to every operator of its left operand. -/
theorem yieldsTo_of_leftLevel_le {o p : Operator} (h : leftLevel o ≤ p.precedence) :
    o.yieldsTo p = true := by
  unfold leftLevel at h
  unfold Operator.yieldsTo
  split at h
  · next ho => rw [if_pos ho]; exact decide_eq_true h
  · next ho => rw [if_neg ho]; exact decide_eq_true h

/-- No operator of the right operand of an operator yields to it. -/
theorem yieldsTo_of_rightLevel_le {o p : Operator} (h : rightLevel o ≤ p.precedence) :
    p.yieldsTo o = false := by
  revert h
  cases o <;> cases p <;> decide

open Postfix

/-- No operator of a level, or of a tighter one, makes the stack let go of anything. -/
def Keeps (level : Nat) (stack : List Waiting) : Prop :=
  ∀ o : Operator, level ≤ o.precedence → releaseFor o stack = ([], stack)

theorem keeps_nil (level : Nat) : Keeps level [] := fun _ _ => rfl

/-- An open parenthesis shields what is below it. -/
theorem keeps_paren (level : Nat) (stack : List Waiting) : Keeps level (.paren :: stack) :=
  fun _ _ => rfl

theorem keeps_op {level : Nat} {top : Operator} (stack : List Waiting)
    (h : ∀ o : Operator, level ≤ o.precedence → o.yieldsTo top = false) :
    Keeps level (.op top :: stack) := by
  intro o ho
  simp [releaseFor, h o ho]

/-- What a level keeps, a tighter one keeps too. -/
theorem Keeps.mono {level level' : Nat} {stack : List Waiting} (h : Keeps level stack)
    (hle : level ≤ level') : Keeps level' stack :=
  fun o ho => h o (Nat.le_trans hle ho)

/-- Pending operators are let go by one that yields to all of them, and nothing else is. -/
theorem releaseFor_pending {o : Operator} {pending : List Operator} {stack : List Waiting}
    (hp : ∀ p ∈ pending, o.yieldsTo p = true) (hs : releaseFor o stack = ([], stack)) :
    releaseFor o (pending.map .op ++ stack) = (pending, stack) := by
  induction pending with
  | nil => exact hs
  | cons p pending ih =>
    have htop : o.yieldsTo p = true := hp p (by simp)
    have hrest := ih fun q hq => hp q (by simp [hq])
    simp [releaseFor, htop, hrest]

theorem releaseToParen?_pending (pending : List Operator) (stack : List Waiting) :
    releaseToParen? (pending.map .op ++ .paren :: stack) = some (pending, stack) := by
  induction pending with
  | nil => rfl
  | cons p pending ih => simp [releaseToParen?, ih]

theorem releaseAll?_pending (pending : List Operator) :
    releaseAll? (pending.map .op) = some pending := by
  induction pending with
  | nil => rfl
  | cons p pending ih => simp [releaseAll?, ih]

/-! ## 3. Reading a tree -/

/-- Some tokens are read into an output and pending operators, whatever stack they find that
the level keeps and whatever follows.  The pending operators bind at least as tightly as the
level. -/
structure Reads (level : Nat) (ts out : List Token) (pending : List Operator) : Prop where
  tight : ∀ p ∈ pending, level ≤ p.precedence
  convert : ∀ (stack : List Waiting) (rest : List Token), Keeps level stack →
    Postfix.convert stack (ts ++ rest)
      = (Postfix.convert (pending.map .op ++ stack) rest).map (out ++ ·)

/-- Reading further adds to the output in front. -/
theorem map_append_map_append (r : Except ParseError (List Token)) (xs ys : List Token) :
    (r.map (ys ++ ·)).map (xs ++ ·) = r.map (xs ++ ys ++ ·) := by
  cases r <;> simp [Except.map]

theorem Reads.mono {level level' : Nat} {ts out : List Token} {pending : List Operator}
    (h : Reads level' ts out pending) (hle : level ≤ level') : Reads level ts out pending where
  tight := fun p hp => Nat.le_trans hle (h.tight p hp)
  convert := fun stack rest hs => h.convert stack rest (hs.mono hle)

/-- **A binary operator between two readings.**  The operator lets go of what the left operand
left pending, and nothing in the right operand lets go of the operator. -/
theorem Reads.binary {o : Operator} {ts₁ ts₂ out₁ out₂ : List Token}
    {pending₁ pending₂ : List Operator} (hl : Reads (leftLevel o) ts₁ out₁ pending₁)
    (hr : Reads (rightLevel o) ts₂ out₂ pending₂) :
    Reads o.precedence (ts₁ ++ .op o :: ts₂) (out₁ ++ pending₁.map .op ++ out₂)
      (pending₂ ++ [o]) where
  tight := by
    intro p hp
    rcases List.mem_append.mp hp with hp | hp
    · exact Nat.le_trans (precedence_le_rightLevel o) (hr.tight p hp)
    · exact Nat.le_of_eq (congrArg Operator.precedence (List.mem_singleton.mp hp)).symm
  convert := by
    intro stack rest hs
    have hrel : releaseFor o (pending₁.map .op ++ stack) = (pending₁, stack) :=
      releaseFor_pending (fun p hp => yieldsTo_of_leftLevel_le (hl.tight p hp))
        (hs o (Nat.le_refl _))
    have hop : Postfix.convert (pending₁.map .op ++ stack) (.op o :: (ts₂ ++ rest))
        = (Postfix.convert (.op o :: stack) (ts₂ ++ rest)).map (pending₁.map .op ++ ·) := by
      rw [Postfix.convert, hrel]
    have hkeep : Keeps (rightLevel o) (.op o :: stack) :=
      keeps_op stack fun p hp => yieldsTo_of_rightLevel_le hp
    rw [List.append_assoc, List.cons_append,
      hl.convert stack _ (hs.mono (precedence_le_leftLevel o)), hop, hr.convert _ rest hkeep,
      map_append_map_append, map_append_map_append]
    simp [List.append_assoc]

/-- A variable goes out at once. -/
theorem Reads.var (c : Char) : Reads 4 [.var c] [.var c] [] where
  tight := fun _ hp => absurd hp List.not_mem_nil
  convert := fun _ _ _ => rfl

/-- A negation waits for its operand. -/
theorem Reads.not {ts out : List Token} {pending : List Operator} (h : Reads 4 ts out pending) :
    Reads 4 (.op .not :: ts) out (pending ++ [.not]) where
  tight := by
    intro p hp
    rcases List.mem_append.mp hp with hp | hp
    · exact h.tight p hp
    · rw [List.mem_singleton.mp hp]
      decide
  convert := by
    intro stack rest hs
    have hkeep : Keeps 4 (.op .not :: stack) :=
      keeps_op stack fun p hp => yieldsTo_of_rightLevel_le (o := .not) hp
    have hop : Postfix.convert stack (.op .not :: (ts ++ rest))
        = (Postfix.convert (.op .not :: stack) (ts ++ rest)).map ([] ++ ·) := by
      rw [Postfix.convert, hs .not (Nat.le_refl _)]
      rfl
    rw [List.cons_append, hop, h.convert _ rest hkeep, map_append_map_append]
    simp [List.append_assoc]

/-- The closing parenthesis lets go of all that is pending since the opening one. -/
theorem Reads.paren {ts out : List Token} {pending : List Operator} (h : Reads 0 ts out pending) :
    Reads 4 (.leftParen :: (ts ++ [.rightParen])) (out ++ pending.map .op) [] where
  tight := fun p hp => absurd hp List.not_mem_nil
  convert := by
    intro stack rest _
    have hclose : Postfix.convert (pending.map .op ++ .paren :: stack) (.rightParen :: rest)
        = (Postfix.convert stack rest).map (pending.map .op ++ ·) := by
      rw [Postfix.convert, releaseToParen?_pending]
    have hopen : Postfix.convert stack (.leftParen :: (ts ++ .rightParen :: rest))
        = Postfix.convert (.paren :: stack) (ts ++ .rightParen :: rest) := rfl
    rw [List.cons_append, List.append_assoc, List.singleton_append, hopen,
      h.convert _ _ (keeps_paren 0 stack), hclose, map_append_map_append]
    rfl

/-- Alone, the tokens are converted to the output and what is pending. -/
theorem Reads.ofInfix {ts out : List Token} {pending : List Operator}
    (h : Reads level ts out pending) : Postfix.ofInfix ts = .ok (out ++ pending.map .op) := by
  have hconvert : Postfix.convert [] ts
      = (Postfix.convert (pending.map .op) []).map (out ++ ·) := by
    simpa using h.convert [] [] (keeps_nil level)
  rw [Postfix.ofInfix, hconvert, Postfix.convert, releaseAll?_pending]
  rfl

/-- **A tree is read into its postorder.**  By induction on the tree; the operators that end up
pending are the last ones of the postorder. -/
theorem exists_reads (d : Derivation level) :
    ∃ out pending, Reads level d.tokens out pending
      ∧ out ++ pending.map Token.op = d.postorder := by
  induction d with
  | chain h d ih =>
    obtain ⟨out, pending, hr, ho⟩ := ih
    exact ⟨out, pending, hr.mono (Nat.le_succ _), ho⟩
  | iff l r ihl ihr =>
    obtain ⟨out₁, pending₁, hr₁, ho₁⟩ := ihl
    obtain ⟨out₂, pending₂, hr₂, ho₂⟩ := ihr
    exact ⟨_, _, Reads.binary (o := .iff) hr₁ hr₂, by simp [postorder, ← ho₁, ← ho₂]⟩
  | implies l r ihl ihr =>
    obtain ⟨out₁, pending₁, hr₁, ho₁⟩ := ihl
    obtain ⟨out₂, pending₂, hr₂, ho₂⟩ := ihr
    exact ⟨_, _, Reads.binary (o := .implies) hr₁ hr₂, by simp [postorder, ← ho₁, ← ho₂]⟩
  | or l r ihl ihr =>
    obtain ⟨out₁, pending₁, hr₁, ho₁⟩ := ihl
    obtain ⟨out₂, pending₂, hr₂, ho₂⟩ := ihr
    exact ⟨_, _, Reads.binary (o := .or) hr₁ hr₂, by simp [postorder, ← ho₁, ← ho₂]⟩
  | and l r ihl ihr =>
    obtain ⟨out₁, pending₁, hr₁, ho₁⟩ := ihl
    obtain ⟨out₂, pending₂, hr₂, ho₂⟩ := ihr
    exact ⟨_, _, Reads.binary (o := .and) hr₁ hr₂, by simp [postorder, ← ho₁, ← ho₂]⟩
  | var name h => exact ⟨_, _, .var name, rfl⟩
  | not d ih =>
    obtain ⟨out, pending, hr, ho⟩ := ih
    exact ⟨_, _, hr.not, by simp [postorder, ← ho]⟩
  | paren d ih =>
    obtain ⟨out, pending, hr, ho⟩ := ih
    exact ⟨_, _, hr.paren, by simp [postorder, ← ho]⟩

/-- The conversion of the tokens of a tree is the postorder of the tree. -/
theorem ofInfix_tokens (d : Derivation level) : ofInfix d.tokens = .ok d.postorder := by
  obtain ⟨out, pending, hr, ho⟩ := d.exists_reads
  rw [hr.ofInfix, ho]

/-! ## 4. Evaluating a tree -/

/-- The formula that a tree stands for. -/
def formula {level : Nat} : Derivation level → Formula
  | .chain _ d => d.formula
  | .iff l r => .connect .iff rfl l.formula r.formula
  | .implies l r => .connect .implies rfl l.formula r.formula
  | .or l r => .connect .or rfl l.formula r.formula
  | .and l r => .connect .and rfl l.formula r.formula
  | .var name _ => .var name
  | .not d => .not d.formula
  | .paren d => d.formula

theorem postorder_formula (d : Derivation level) : d.formula.postorder = d.postorder := by
  induction d with
  | chain h d ih | paren d ih => exact ih
  | iff l r ihl ihr | implies l r ihl ihr | or l r ihl ihr | and l r ihl ihr =>
    simp [formula, Formula.postorder, postorder, ihl, ihr]
  | var name h => rfl
  | not d ih => simp [formula, Formula.postorder, postorder, ih]

theorem value_formula (v : Char → Bool) (d : Derivation level) :
    d.formula.value v = d.value v := by
  induction d with
  | chain h d ih | paren d ih => exact ih
  | iff l r ihl ihr | implies l r ihl ihr | or l r ihl ihr | and l r ihl ihr =>
    simp [formula, Formula.value, Operator.apply, value, ihl, ihr]
  | var name h => rfl
  | not d ih => simp [formula, Formula.value, value, ih]

/-- The names of the formula are variables among the tokens. -/
theorem var_mem_tokens {d : Derivation level} {c : Char} (h : c ∈ d.formula.names) :
    Token.var c ∈ d.tokens := by
  induction d with
  | chain _ d ih => exact ih h
  | paren d ih => simp [tokens, ih h]
  | iff l r ihl ihr | implies l r ihl ihr | or l r ihl ihr | and l r ihl ihr =>
    rcases List.mem_append.mp h with h | h
    · simp [tokens, ihl h]
    · simp [tokens, ihr h]
  | var name _ => simpa [tokens, formula, Formula.names] using h
  | not d ih => simp [tokens, ih h]

/-- The postorder of a tree evaluates to the value of the tree. -/
theorem evaluate_postorder {d : Derivation level} {a : Assignment} {v : Char → Bool}
    (h : ∀ c, Token.var c ∈ d.tokens → a.get? c = some (v c)) :
    evaluate a d.postorder = .ok (d.value v) := by
  rw [← postorder_formula, ← value_formula]
  exact Formula.evaluate_postorder fun c hc => h c (var_mem_tokens hc)

/-- **The conversion follows the grammar.**  The tokens of a derivation tree are converted to
its postorder, and for each assignment that gives values to the variables of the tree the
postorder evaluates to the value of the tree. -/
theorem ofInfix_tokens_and_evaluate (d : Derivation level) :
    ofInfix d.tokens = .ok d.postorder ∧
      ∀ (a : Assignment) (v : Char → Bool),
        (∀ c, Token.var c ∈ d.tokens → a.get? c = some (v c)) →
          evaluate a d.postorder = .ok (d.value v) :=
  ⟨d.ofInfix_tokens, fun _ _ h => evaluate_postorder h⟩

/-- The tree of `! a -> a ~ ( b ~ a )`, which mixes levels, directions of grouping and
parentheses. -/
def mixed : Derivation 0 :=
  have a : Derivation 4 := .var 'a' (by decide)
  have b : Derivation 4 := .var 'b' (by decide)
  have tight (d : Derivation 4) : Derivation 2 := .chain (by decide) (.chain (by decide) d)
  .iff (.implies (tight (.not a)) (.chain (by decide) (tight a)))
    (.chain (by decide) (.chain (by decide) (tight
      (.paren (.iff (.chain (by decide) (tight b))
        (.chain (by decide) (.chain (by decide) (tight a))))))))

/-- The tree of `mixed` where `a` is false and `b` is true. -/
theorem evaluate_mixed :
    (∀ c, Token.var c ∈ mixed.tokens →
      (Assignment.ofPairs [('a', false), ('b', true)]).get? c = some (c == 'b')) ∧
    evaluate (.ofPairs [('a', false), ('b', true)]) mixed.postorder = .ok true := by
  have h : ∀ c, Token.var c ∈ mixed.tokens →
      (Assignment.ofPairs [('a', false), ('b', true)]).get? c = some (c == 'b') := by
    intro c hc
    have hc' : c = 'a' ∨ c = 'b' ∨ c = 'a' := by
      simpa [mixed, tokens] using hc
    rcases hc' with rfl | rfl | rfl <;> decide
  exact ⟨h, (ofInfix_tokens_and_evaluate mixed).2 _ _ h⟩

end Derivation
end TwoLevel
