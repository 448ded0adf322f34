/-
# Sentences

The sentences of the infix grammar

    E ::= variable | ! E | E op E | ( E )

are the lists of tokens in which parentheses match and each token stands in its place: a
variable, a negation and an opening parenthesis where an operand is expected, and a binary
operator and a closing parenthesis where one has just ended (`Postfix.inPlace`).

The conversion to postfix order looks at parentheses only, and the evaluation at the number of
operands.  So every sentence is analysed, but a text need not be a sentence for that: in `a !`
and `a b &` the operators come after their operands.

* `Sentence.iff_inPlace`: the sentences are the lists that match and are in place;
* `Postfix.operands_of_inPlace`: tokens in place are counted to one operand;
* `Analysis.sentence_iff`: the sentences are the texts in place that are analysed, and every text
  that is analysed is read as a formula with its variables and operators.
-/
import TwoLevel.Proofs.Outcome

namespace TwoLevel

open Postfix (convert ofInfix operands fault?)

/-! ## 1. Sentences and places -/

/-- The sentences of the infix grammar. -/
inductive Sentence : List Token → Prop where
  | var (c : Char) : Sentence [.var c]
  | not {ts : List Token} (h : Sentence ts) : Sentence (.op .not :: ts)
  | binary {o : Operator} (ho : o.isUnary = false) {ls rs : List Token} (hl : Sentence ls)
    (hr : Sentence rs) : Sentence (ls ++ .op o :: rs)
  | paren {ts : List Token} (h : Sentence ts) : Sentence (.leftParen :: (ts ++ [.rightParen]))

/-- What may stand at a place: the start of an operand, or what follows one. -/
inductive Expected where
  | operand
  | operator
  deriving DecidableEq, Repr

namespace Postfix

/-- Whether each token stands in its place. -/
def inPlace : Expected → List Token → Bool
  | .operand, .var _ :: ts => inPlace .operator ts
  | .operand, .op o :: ts => o.isUnary && inPlace .operand ts
  | .operand, .leftParen :: ts => inPlace .operand ts
  | .operator, .op o :: ts => !o.isUnary && inPlace .operand ts
  | .operator, .rightParen :: ts => inPlace .operator ts
  | .operator, [] => true
  | _, _ => false

example : inPlace .operand (Token.ofText "! ( a | b ) -> c") = true := by decide

example : ["a !", "a b &", "( ) a"].any (inPlace .operand <| Token.ofText ·) = false := by decide

end Postfix

open Postfix (inPlace)

variable {ts rest : List Token} {opened : Nat}

namespace Sentence

/-! ## 2. A sentence matches and is in place -/

theorem inPlace_append (h : Sentence ts) (rest : List Token) :
    inPlace .operand (ts ++ rest) = inPlace .operator rest := by
  induction h generalizing rest with
  | var c => rfl
  | not h ih => exact ih rest
  | binary ho hl hr ihl ihr =>
    rw [List.append_assoc, ihl, List.cons_append, inPlace, ho, ihr]
    rfl
  | paren h ih =>
    rw [List.cons_append, inPlace, List.append_assoc, ih]
    rfl

theorem fault?_append (h : Sentence ts) (opened : Nat) (rest : List Token) :
    fault? opened (ts ++ rest) = fault? opened rest := by
  induction h generalizing opened rest with
  | var c => rw [List.singleton_append, fault?]
  | not h ih => rw [List.cons_append, fault?, ih]
  | binary ho hl hr ihl ihr => rw [List.append_assoc, ihl, List.cons_append, fault?, ihr]
  | paren h ih =>
    rw [List.cons_append, fault?, List.append_assoc, ih, List.singleton_append, fault?]

theorem exists_var (h : Sentence ts) : ∃ c, Token.var c ∈ ts := by
  induction h with
  | var c => exact ⟨c, by simp⟩
  | not h ih | paren h ih =>
    obtain ⟨c, hc⟩ := ih
    exact ⟨c, by simp [hc]⟩
  | binary ho hl hr ihl ihr =>
    obtain ⟨c, hc⟩ := ihl
    exact ⟨c, by simp [hc]⟩

/-! ## 3. What matches and is in place is a sentence -/

/-- What follows a sentence that cannot go on: nothing, or the parenthesis that closes it. -/
def Ends : Nat → List Token → Prop
  | 0, rest => rest = []
  | opened + 1, rest =>
    ∃ later, rest = .rightParen :: later ∧ inPlace .operator later = true ∧
      fault? opened later = none

/-- The tokens start with a sentence that goes on as long as it can. -/
def Starts (opened : Nat) (ts : List Token) : Prop :=
  ∃ head rest, ts = head ++ rest ∧ Sentence head ∧ Ends opened rest

/-- **A sentence goes on over the operators that follow it.**  What stands behind an operator is
shorter, so it starts with a sentence by assumption. -/
theorem starts_append {n : Nat}
    (ih : ∀ ts opened, ts.length < n → inPlace .operand ts = true → fault? opened ts = none →
      Starts opened ts)
    (h : Sentence ts) (hlen : rest.length ≤ n) (hplace : inPlace .operator rest = true)
    (hfault : fault? opened rest = none) : Starts opened (ts ++ rest) := by
  cases rest with
  | nil =>
    cases opened with
    | zero => exact ⟨ts, [], rfl, h, rfl⟩
    | succ opened => cases hfault
  | cons t later =>
    cases t with
    | op o =>
      rw [inPlace, Bool.and_eq_true, Bool.not_eq_true'] at hplace
      rw [fault?] at hfault
      obtain ⟨head, rest, rfl, hhead, hends⟩ := ih later opened hlen hplace.2 hfault
      exact ⟨ts ++ .op o :: head, rest, by simp, .binary hplace.1 h hhead, hends⟩
    | rightParen =>
      cases opened with
      | zero => cases hfault
      | succ opened =>
        rw [inPlace] at hplace
        rw [fault?] at hfault
        exact ⟨ts, _, rfl, h, later, rfl, hplace, hfault⟩
    | var c | leftParen | unknown w => cases hplace

/-- **Where tokens match and are in place, a sentence starts.**  By induction on their number. -/
theorem starts_of_inPlace (hplace : inPlace .operand ts = true)
    (hfault : fault? opened ts = none) : Starts opened ts := by
  induction hn : ts.length using Nat.strongRecOn generalizing ts opened with
  | ind n ih =>
    have ih' : ∀ ts opened, ts.length < n → inPlace .operand ts = true →
        fault? opened ts = none → Starts opened ts :=
      fun ts opened hlt hp hf => ih ts.length hlt hp hf rfl
    cases ts with
    | nil => cases hplace
    | cons t ts =>
      have hlt : ts.length < n := by rw [← hn]; exact Nat.lt_succ_self _
      cases t with
      | var c =>
        rw [fault?] at hfault
        exact starts_append ih' (.var c) (Nat.le_of_lt hlt) hplace hfault
      | op o =>
        rw [inPlace, Bool.and_eq_true] at hplace
        obtain rfl : o = .not := of_decide_eq_true hplace.1
        rw [fault?] at hfault
        obtain ⟨head, rest, rfl, hhead, hends⟩ := ih' ts opened hlt hplace.2 hfault
        exact ⟨.op .not :: head, rest, rfl, .not hhead, hends⟩
      | leftParen =>
        rw [fault?] at hfault
        obtain ⟨head, rest, rfl, hhead, later, rfl, hp, hf⟩ := ih' ts (opened + 1) hlt hplace hfault
        have hlater : later.length ≤ n := by
          simp only [List.length_append, List.length_cons] at hlt
          omega
        have hgoes := starts_append ih' (.paren hhead) hlater hp hf
        simpa using hgoes
      | rightParen | unknown w => cases hplace

/-- **The sentences are the tokens that match and are in place.** -/
theorem iff_inPlace : Sentence ts ↔ inPlace .operand ts = true ∧ fault? 0 ts = none := by
  constructor
  · intro h
    have hplace := h.inPlace_append []
    have hfault := h.fault?_append 0 []
    rw [List.append_nil] at hplace hfault
    exact ⟨hplace, hfault⟩
  · rintro ⟨hplace, hfault⟩
    obtain ⟨head, rest, rfl, hhead, hends⟩ := starts_of_inPlace hplace hfault
    obtain rfl : rest = [] := hends
    rwa [List.append_nil]

end Sentence

/-! ## 4. Tokens in place are counted to one operand -/

namespace Postfix

variable {stack : List Waiting} {out : List Token}

/-- Whether a binary operator waits. -/
def Waiting.isBinary : Waiting → Bool
  | .op o => !o.isUnary
  | .paren => false

/-- Operators that find their operands leave one for each of the others. -/
theorem operands_map_op (ops : List Operator) (n : Nat) (out : List Token) :
    operands ((ops.map Waiting.op).countP Waiting.isBinary + n + 1) (ops.map .op ++ out)
      = operands (n + 1) out := by
  induction ops with
  | nil => rw [List.map_nil, List.countP_nil, Nat.zero_add]; rfl
  | cons o ops ih =>
    rw [List.map_cons, List.map_cons, List.cons_append, operands, List.countP_cons]
    cases ho : o.isUnary with
    | true =>
      have hbinary : Waiting.isBinary (.op o) = false := by simp [Waiting.isBinary, ho]
      have harity : o.arity = 1 := if_pos ho
      rw [hbinary, harity, if_neg Bool.false_ne_true, Nat.add_zero, if_neg (by omega),
        Nat.add_sub_cancel]
      exact ih
    | false =>
      have hbinary : Waiting.isBinary (.op o) = true := by simp [Waiting.isBinary, ho]
      have harity : o.arity = 2 := by simp [Operator.arity, ho]
      have hsub : (ops.map Waiting.op).countP Waiting.isBinary + 1 + n + 1 - 2 + 1
          = (ops.map Waiting.op).countP Waiting.isBinary + n + 1 := by omega
      rw [hbinary, harity, if_pos rfl, if_neg (by omega), hsub]
      exact ih

/-- A negation lets nothing go. -/
theorem releaseFor_not (stack : List Waiting) : releaseFor .not stack = ([], stack) := by
  rcases stack with _ | ⟨_ | top, stack⟩
  · rfl
  · rfl
  · cases top <;> rfl

/-- The operands that are there when so much of a list in place is left: one for each binary
operator that waits, and one more behind an operand. -/
def Expected.operands (stack : List Waiting) : Expected → Nat
  | .operand => stack.countP Waiting.isBinary
  | .operator => stack.countP Waiting.isBinary + 1

/-- A token in place keeps the operands at what is due: an operator is let go only behind an
operand, where it finds what it takes. -/
theorem Places.operands_eq {t : Token} {now : List Token} {rest : List Waiting}
    (h : Places stack t now rest) {expected : Expected}
    (hplace : inPlace expected (t :: ts) = true) (later : List Token) :
    ∃ next, inPlace next ts = true ∧
      operands (Expected.operands stack expected) (now ++ later)
        = operands (Expected.operands rest next) later := by
  cases expected with
  | operand =>
    cases h with
    | var c => exact ⟨.operator, hplace, rfl⟩
    | op o =>
      rw [inPlace, Bool.and_eq_true] at hplace
      obtain rfl : o = .not := of_decide_eq_true hplace.1
      refine ⟨.operand, hplace.2, ?_⟩
      simp [releaseFor_not, Expected.operands, Waiting.isBinary, Operator.isUnary]
    | leftParen =>
      refine ⟨.operand, hplace, ?_⟩
      simp [Expected.operands, Waiting.isBinary]
    | rightParen ops => cases hplace
  | operator =>
    cases h with
    | var c => cases hplace
    | op o =>
      rw [inPlace, Bool.and_eq_true, Bool.not_eq_true'] at hplace
      refine ⟨.operand, hplace.2, ?_⟩
      have hstack := congrArg (List.countP Waiting.isBinary) (append_releaseFor o stack)
      rw [List.countP_append] at hstack
      simp only [Expected.operands]
      rw [← hstack, operands_map_op]
      simp [Waiting.isBinary, hplace.1]
    | leftParen => cases hplace
    | rightParen ops =>
      refine ⟨.operator, hplace, ?_⟩
      rw [Expected.operands, List.countP_append, operands_map_op]
      simp [Expected.operands, Waiting.isBinary]

/-- **Tokens in place are counted to one operand.**  The count that is due at each place is the
invariant. -/
theorem operands_of_inPlace {expected : Expected} (hplace : inPlace expected ts = true)
    (h : convert stack ts = .ok out) : operands (Expected.operands stack expected) out = .ok 1 := by
  induction ts generalizing stack out expected with
  | nil =>
    cases expected with
    | operand => cases hplace
    | operator =>
      obtain ⟨ops, rfl, rfl⟩ := convert_nil_eq_ok_iff.mp h
      simpa [Expected.operands, operands] using operands_map_op ops 0 []
  | cons t ts ih =>
    obtain ⟨now, rest, later, hp, hl, rfl⟩ := convert_cons_eq_ok_iff.mp h
    obtain ⟨next, hnext, hcount⟩ := hp.operands_eq hplace later
    rw [hcount]
    exact ih hnext hl

end Postfix

/-! ## 5. Texts that are analysed -/

namespace Analysis

variable {source : String} {out : List Token}

/-- Every sentence is analysed. -/
theorem exists_parse_of_sentence (h : Sentence (Token.ofText source)) :
    ∃ a, parse source = .ok a := by
  obtain ⟨hplace, hfault⟩ := Sentence.iff_inPlace.mp h
  obtain ⟨out, hout⟩ := Postfix.exists_ofInfix_iff.mpr hfault
  exact exists_parse_iff.mpr ⟨out, ⟨hout, h.exists_var⟩, Postfix.operands_of_inPlace hplace hout⟩

/-- A text that is analysed is read as a formula with its variables, in order, and its
operators. -/
theorem exists_formula {a : Analysis} (h : parse source = .ok a) :
    ∃ f : Formula, a.expression.tokens = f.postorder ∧
      f.names = (Token.ofText source).filterMap Token.name? ∧
      f.postorder.Perm ((Token.ofText source).filter Token.isSymbol) := by
  obtain ⟨out, hout, hone⟩ := exists_parse_iff.mp ⟨a, h⟩
  obtain ⟨f, rfl⟩ := Postfix.exists_postorder hone
  obtain ⟨out', hout', he⟩ := Expression.parse_eq_ok_iff.mp (of_parse h).1
  obtain rfl := Except.ok.inj (hout.ordered.symm.trans hout')
  refine ⟨f, by rw [he], ?_, Postfix.perm_of_convert hout.ordered⟩
  rw [← f.filterMap_name?_postorder, Postfix.filterMap_name?_of_convert hout.ordered]

/-- **Sentences and texts that are analysed.**  The sentences are the texts that are analysed
and in which each token stands in its place.  In every text that is analysed the words have a
meaning and parentheses match, and it is read as a formula with its variables, in order, and
its operators. -/
theorem sentence_iff (source : String) :
    (Sentence (Token.ofText source) ↔
      (∃ a, parse source = .ok a) ∧ inPlace .operand (Token.ofText source) = true) ∧
    ∀ a, parse source = .ok a →
      fault? 0 (Token.ofText source) = none ∧
      ∃ f : Formula, a.expression.tokens = f.postorder ∧
        f.names = (Token.ofText source).filterMap Token.name? ∧
        f.postorder.Perm ((Token.ofText source).filter Token.isSymbol) := by
  have hfault : ∀ a, parse source = .ok a → fault? 0 (Token.ofText source) = none := by
    intro a h
    obtain ⟨out, hout, -⟩ := exists_parse_iff.mp ⟨a, h⟩
    exact Postfix.exists_ofInfix_iff.mp ⟨out, hout.ordered⟩
  refine ⟨⟨fun h => ?_, ?_⟩, fun a h => ⟨hfault a h, exists_formula h⟩⟩
  · exact ⟨exists_parse_of_sentence h, (Sentence.iff_inPlace.mp h).1⟩
  · rintro ⟨⟨a, h⟩, hplace⟩
    exact Sentence.iff_inPlace.mpr ⟨hplace, hfault a h⟩

/-- Two operands in parentheses and an operator behind them are no sentence, but they are read as
a formula. -/
theorem sentence_iff_operator_last :
    ¬ Sentence (Token.ofText "( a b ) &") ∧ ∃ a, parse "( a b ) &" = .ok a ∧
      ∃ f : Formula, a.expression.tokens = f.postorder ∧ f.names = ['a', 'b'] := by
  obtain ⟨hiff, hread⟩ := sentence_iff "( a b ) &"
  refine ⟨fun h => absurd (hiff.mp h).2 (by decide), ?_⟩
  have hok : (parse "( a b ) &").map (·.minimal .sop) = .ok "a & b" := by rfl
  cases h : parse "( a b ) &" with
  | error e => simp [h, Except.map] at hok
  | ok a =>
    obtain ⟨-, f, htokens, hnames, -⟩ := hread a h
    exact ⟨a, rfl, f, htokens, hnames⟩

/-- A negation behind its operand is no sentence, but it is analysed. -/
theorem exists_parse_not_sentence :
    (∃ a, parse "a !" = .ok a) ∧ ¬ Sentence (Token.ofText "a !") := by
  have hok : (parse "a !").map (·.minimal .sop) = .ok "!a" := by rfl
  constructor
  · cases h : parse "a !" with
    | error e => simp [h, Except.map] at hok
    | ok a => exact ⟨a, rfl⟩
  · exact fun h => absurd (Sentence.iff_inPlace.mp h).1 (by decide)

end Analysis
end TwoLevel
