/-
# The first token that cannot be placed

The conversion to postfix order keeps parentheses and operators on one stack.  Whether it fails,
and how, is decided without the stack: read from the left, a token cannot be placed when it is a
word without meaning, or a closing parenthesis while none is open.

* `Postfix.fault?_cons_of_placeable`: a token that can be placed only changes the number of open
  parentheses;
* `Postfix.Placeable.fault?_append`: so do any number of such tokens;
* `Postfix.ofInfix_outcome`: the conversion fails by the first token that cannot be placed, or by
  a parenthesis that stays open, and otherwise keeps all variables and operators.
-/
import Mathlib.Data.List.Induction
import TwoLevel.Proofs.Conversion

namespace TwoLevel
namespace Postfix

variable {ts : List Token} {t : Token}

/-! ## 1. Open parentheses -/

/-- The number of parentheses that are open after some tokens. -/
def openParens (ts : List Token) : Nat :=
  ts.count .leftParen - ts.count .rightParen

/-- Whether a token cannot be placed after some others: a word without meaning, or a closing
parenthesis while none is open. -/
def Unplaceable (before : List Token) : Token → Prop
  | .unknown _ => True
  | .rightParen => openParens before = 0
  | _ => False

/-- Whether each token can be placed after those before it. -/
def Placeable (ts : List Token) : Prop :=
  ∀ before t after, ts = before ++ t :: after → ¬ Unplaceable before t

/-- Whether a token is the first that cannot be placed. -/
def FirstUnplaceable (ts : List Token) (t : Token) : Prop :=
  ∃ before after, ts = before ++ t :: after ∧ Unplaceable before t ∧ Placeable before

theorem placeable_append_singleton :
    Placeable (ts ++ [t]) ↔ Placeable ts ∧ ¬ Unplaceable ts t := by
  constructor
  · intro h
    refine ⟨fun before u after hts => h before u (after ++ [t]) ?_, h ts t [] rfl⟩
    rw [hts, List.append_assoc, List.cons_append]
  · rintro ⟨hts, ht⟩ before u after h
    rcases List.eq_nil_or_concat after with rfl | ⟨later, v, rfl⟩
    · obtain ⟨rfl, hu⟩ := List.append_inj' h rfl
      exact List.singleton_inj.mp hu ▸ ht
    · rw [List.concat_eq_append, ← List.cons_append, ← List.append_assoc] at h
      exact hts before u later (List.append_inj' h rfl).1

theorem placeable_nil : Placeable [] := by
  intro before t after h
  simp at h

/-- There is a first token that cannot be placed, unless all of them can be. -/
theorem exists_firstUnplaceable_iff : (∃ t, FirstUnplaceable ts t) ↔ ¬ Placeable ts := by
  constructor
  · rintro ⟨t, before, after, hts, ht, -⟩ h
    exact h before t after hts ht
  · induction ts using List.reverseRecOn with
    | nil => exact fun h => absurd placeable_nil h
    | append_singleton ts t ih =>
      rw [placeable_append_singleton, not_and_not_right]
      intro h
      by_cases hts : Placeable ts
      · exact ⟨t, ts, [], rfl, h hts, hts⟩
      · obtain ⟨u, before, after, rfl, hu, hbefore⟩ := ih hts
        exact ⟨u, before, after ++ [t], by simp, hu, hbefore⟩

/-- Where each token can be placed, no more parentheses are closed than opened. -/
theorem Placeable.count_le (h : Placeable ts) : ts.count .rightParen ≤ ts.count .leftParen := by
  induction ts using List.reverseRecOn with
  | nil => exact Nat.le_refl _
  | append_singleton ts t ih =>
    obtain ⟨hts, ht⟩ := placeable_append_singleton.mp h
    have hle := ih hts
    simp only [List.count_append]
    cases t with
    | rightParen =>
      have hopen : ts.count .leftParen - ts.count .rightParen ≠ 0 := ht
      simp
      omega
    | _ => simp; omega

/-! ## 2. Failures -/

/-- **A token that can be placed only changes the number of open parentheses.** -/
theorem fault?_cons_of_placeable (hts : Placeable ts) (ht : ¬ Unplaceable ts t)
    (us : List Token) :
    fault? (openParens ts) (t :: us) = fault? (openParens (ts ++ [t])) us := by
  have hle := hts.count_le
  cases t with
  | var c => simp [fault?, openParens]
  | op o => simp [fault?, openParens]
  | leftParen => simp [fault?, openParens, Nat.sub_add_comm hle]
  | rightParen =>
    have hopen : ts.count .leftParen - ts.count .rightParen ≠ 0 := ht
    obtain ⟨n, hn⟩ := Nat.exists_eq_succ_of_ne_zero hopen
    have hclosed : openParens (ts ++ [.rightParen]) = n := by
      simp [openParens]
      omega
    rw [hclosed, openParens, hn, fault?]
  | unknown w => exact absurd trivial ht

/-- What follows tokens that can be placed fails as it does after their open parentheses. -/
theorem Placeable.fault?_append (h : Placeable ts) (us : List Token) :
    fault? 0 (ts ++ us) = fault? (openParens ts) us := by
  induction ts using List.reverseRecOn generalizing us with
  | nil => rfl
  | append_singleton ts t ih =>
    obtain ⟨hts, ht⟩ := placeable_append_singleton.mp h
    rw [List.append_assoc, ih hts]
    exact fault?_cons_of_placeable hts ht us

/-- **The outcome of a conversion.**  The first token that cannot be placed is the failure; if
there is none, a parenthesis that stays open is; every other list has a postfix order.  This holds
the variables and operators of the list and nothing else, the variables in their order. -/
theorem ofInfix_outcome (ts : List Token) :
    (∀ t, FirstUnplaceable ts t →
      (∀ word, t = .unknown word → ofInfix ts = .error (.invalidToken word)) ∧
      (t = .rightParen → ofInfix ts = .error .mismatchedParentheses)) ∧
    ((¬ ∃ t, FirstUnplaceable ts t) →
      (0 < openParens ts → ofInfix ts = .error .mismatchedParentheses) ∧
      (openParens ts = 0 → ∃ out, ofInfix ts = .ok out)) ∧
    ∀ out, ofInfix ts = .ok out →
      (∀ t ∈ out, (∃ c, t = .var c) ∨ ∃ o, t = .op o) ∧
      out.Perm (ts.filter Token.isSymbol) ∧
      out.filterMap Token.name? = ts.filterMap Token.name? := by
  have herror : ∀ fault, ofInfix ts = .error fault ↔ fault? 0 ts = some fault :=
    fun fault => convert_eq_error_iff
  refine ⟨?_, fun hnone => ?_, fun out hout => ⟨fun t ht => ?_, ?_, ?_⟩⟩
  · rintro t ⟨before, after, rfl, ht, hbefore⟩
    simp only [herror, hbefore.fault?_append]
    constructor
    · rintro word rfl
      rw [fault?]
    · rintro rfl
      have hopen : openParens before = 0 := ht
      rw [hopen, fault?]
  · have hts : Placeable ts := Classical.not_not.mp (mt exists_firstUnplaceable_iff.mpr hnone)
    have hfault := hts.fault?_append []
    rw [List.append_nil] at hfault
    constructor
    · intro hopen
      obtain ⟨n, hn⟩ := Nat.exists_eq_succ_of_ne_zero (Nat.pos_iff_ne_zero.mp hopen)
      rw [herror, hfault, hn, fault?]
    · intro hopen
      rw [exists_ofInfix_iff, hfault, hopen, fault?]
  · have hsymbol := isSymbol_of_ofInfix hout t ht
    cases t with
    | var c => exact .inl ⟨c, rfl⟩
    | op o => exact .inr ⟨o, rfl⟩
    | _ => cases hsymbol
  · exact perm_of_convert hout
  · exact filterMap_name?_of_convert hout

/-- Four lists of tokens: the closing parenthesis comes before the word without meaning, the word
before the parenthesis that stays open, a parenthesis stays open, and one in which every token can
be placed although an operator has no operands. -/
theorem ofInfix_outcome_of_four_lists :
    ofInfix [.var 'a', .rightParen, .unknown "x"] = .error .mismatchedParentheses ∧
      ofInfix [.leftParen, .unknown "x"] = .error (.invalidToken "x") ∧
      ofInfix [.leftParen, .var 'a'] = .error .mismatchedParentheses ∧
      ∃ out, ofInfix [.leftParen, .op .and, .rightParen, .var 'a'] = .ok out ∧
        out.Perm [.op .and, .var 'a'] := by
  have hvar : ∀ {ts : List Token}, Placeable ts → ∀ c, Placeable (ts ++ [.var c]) :=
    fun h c => placeable_append_singleton.mpr ⟨h, id⟩
  have hleft : Placeable [.leftParen] := placeable_append_singleton.mpr ⟨placeable_nil, id⟩
  have hop : Placeable ([.leftParen] ++ [.op .and]) :=
    placeable_append_singleton.mpr ⟨hleft, id⟩
  have hopen : openParens [.leftParen, .op .and] ≠ 0 := by decide
  have hclosed : Placeable ([.leftParen, .op .and] ++ [.rightParen]) :=
    placeable_append_singleton.mpr ⟨hop, hopen⟩
  refine ⟨((ofInfix_outcome _).1 .rightParen ?_).2 rfl,
    ((ofInfix_outcome _).1 (.unknown "x") ?_).1 _ rfl,
    ((ofInfix_outcome _).2.1 ?_).1 Nat.one_pos, ?_⟩
  · exact ⟨[.var 'a'], [.unknown "x"], rfl, rfl, hvar placeable_nil 'a'⟩
  · exact ⟨[.leftParen], [], rfl, trivial, hleft⟩
  · exact fun h => exists_firstUnplaceable_iff.mp h (hvar hleft 'a')
  · obtain ⟨-, hplaced, hout⟩ :=
      ofInfix_outcome [.leftParen, .op .and, .rightParen, .var 'a']
    obtain ⟨out, h⟩ :=
      (hplaced fun h => exists_firstUnplaceable_iff.mp h (hvar hclosed 'a')).2 rfl
    exact ⟨out, h, (hout out h).2.1⟩

end Postfix
end TwoLevel
