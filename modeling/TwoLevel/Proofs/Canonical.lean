/-
# The minimal form is canonical

A minimal form tells which function it was made of, since it can be read again.  Conversely it
does not depend on the variables that the function is given over: a variable without influence
changes nothing, and any two lists of variables are part of a common one.

* `Minimization.value_eq_of_expression_eq`: equal texts are of one function;
* `Minimization.expression_eq_of_value_eq`: one function has equal texts;
* `Analysis.minimal_eq_iff`: two texts have the same minimal form exactly when they have the same
  value under every assignment.
-/
import TwoLevel.Proofs.WidenedChoice

namespace TwoLevel

/-! ## 1. Tables of a function -/

/-- A new element is put in at a place. -/
theorem Ascending.exists_insertSorted {x : Char} {xs : List Char} (h : x ∉ xs) :
    ∃ place ≤ xs.length, insertSorted x xs = xs.insertIdx place x := by
  induction xs with
  | nil => exact ⟨0, Nat.le_refl 0, rfl⟩
  | cons y ys ih =>
    rw [List.mem_cons, not_or] at h
    obtain ⟨place, hp, hys⟩ := ih h.2
    unfold insertSorted
    split
    · exact ⟨0, Nat.zero_le _, rfl⟩
    · split
      · exact ⟨place + 1, Nat.succ_le_succ hp, by rw [hys, List.insertIdx_succ_cons]⟩
      · next hxy hyx => exact absurd (Std.Trichotomous.trichotomous x y hxy hyx) h.1

/-- Not more than five variables have the names of variables. -/
theorem Variables.size_le {vs : Variables} (h : ∀ c ∈ vs, Token.isVariable c = true) :
    vs.size ≤ maxVariables := by
  have hnodup : vs.toList.Nodup := vs.pairwise.imp Char.ne_of_lt
  exact hnodup.length_le_of_subset fun c hc => Token.mem_of_isVariable (h c hc)

namespace TruthTable

/-- A table looks only at its variables. -/
theorem value_congr {t : TruthTable} {v w : Char → Bool} (h : ∀ c ∈ t.vars, v c = w c) :
    t.value v = t.value w := by
  rw [value, value, List.map_congr_left h]

/-- **A function has a table over any variables that contain those of a table of it.** -/
theorem exists_value_eq (t : TruthTable) {vs : Variables} (hs : vs.size ≤ maxVariables)
    (hvs : ∀ c ∈ t.vars, c ∈ vs) : ∃ u : TruthTable, u.vars = vs ∧ u.value = t.value := by
  have hlen : ((List.range vs.rowCount).map fun i => t.value (Assignment.ofRow vs i).value).length
      = vs.rowCount := by simp
  refine ⟨⟨vs, _, hs, hlen⟩, rfl, ?_⟩
  funext v
  have hlt : RowIndex.ofBits (vs.toList.map v) < vs.rowCount := by
    have hlt := RowIndex.ofBits_lt (vs.toList.map v)
    rwa [List.length_map] at hlt
  rw [value, List.getD_eq_getElem?_getD, List.getElem?_map, List.getElem?_range hlt]
  refine value_congr fun c hc => ?_
  rw [Assignment.value, Assignment.get?_ofRow_ofBits (hvs c hc)]
  rfl

end TruthTable

/-! ## 2. One function, one text -/

namespace Minimization

variable {form : NormalForm} {t u : TruthTable} {m n : Minimization}

/-- Each form of a table exists. -/
theorem exists_ofTable (t : TruthTable) (form : NormalForm) : ∃ m, ofTable t form = .ok m := by
  obtain ⟨s, hs⟩ := PrimeSearch.exists_run t.size_le
    (fun i (hi : i ∈ t.terms form) => TruthTable.lt_of_mem_terms hi)
  have hprimes := PrimeSearch.arePrimes_of_run hs
  obtain ⟨c, hc⟩ : ∃ c, Cover.select s.primes (t.terms form) t.vars form = .ok c :=
    Cover.exists_select fun i hi => (hprimes.of_mem hi).1
  exact ⟨⟨s, c⟩, by simp [ofTable, hs, hc, bind, Except.bind, pure, Except.pure]⟩

/-- More variables change nothing.  By induction on the list of those that are added. -/
theorem expression_foldr_insert (h : ofTable t form = .ok m) (names : List Char)
    (k : ofTable u form = .ok n) (hvars : u.vars = names.foldr Ascending.insert t.vars)
    (hvalue : u.value = t.value) : n.cover.expression = m.cover.expression := by
  induction names generalizing u n with
  | nil =>
    obtain rfl : u = t := TruthTable.ext_value hvars hvalue
    rw [h] at k
    cases k
    rfl
  | cons x names ih =>
    rw [List.foldr_cons] at hvars
    by_cases hx : x ∈ names.foldr Ascending.insert t.vars
    · have hsame : (names.foldr Ascending.insert t.vars).insert x
          = names.foldr Ascending.insert t.vars := by
        refine Ascending.ext_mem fun c => ?_
        rw [Ascending.mem_insert, or_iff_right_iff_imp]
        rintro rfl
        exact hx
      exact ih k (hvars.trans hsame) hvalue
    · obtain ⟨place, hp, hplace⟩ := Ascending.exists_insertSorted hx
      have huvars : u.vars.toList
          = (names.foldr Ascending.insert t.vars).toList.insertIdx place x :=
        (congrArg Ascending.toList hvars).trans hplace
      have hsize : (names.foldr Ascending.insert t.vars).size ≤ maxVariables := by
        have hu := u.size_le
        rw [Ascending.size, huvars, List.length_insertIdx_of_le_length hp] at hu
        exact Nat.le_of_succ_le hu
      obtain ⟨w, hwvars, hwvalue⟩ := t.exists_value_eq hsize fun c hc =>
        Ascending.mem_foldr_insert.mpr (.inr hc)
      obtain ⟨k', hk'⟩ := exists_ofTable w form
      have hplace' : place ≤ w.vars.size := hwvars ▸ hp
      rw [expression_widen hk' k hplace' (hwvars ▸ huvars) (hvalue.trans hwvalue.symm)]
      exact ih hk' hwvars hwvalue

/-- **One function has equal texts**, over whatever variables it is given. -/
theorem expression_eq_of_value_eq (h : ofTable t form = .ok m) (k : ofTable u form = .ok n)
    (ht : ∀ c ∈ t.vars, Token.isVariable c = true)
    (hu : ∀ c ∈ u.vars, Token.isVariable c = true) (hvalue : t.value = u.value) :
    m.cover.expression = n.cover.expression := by
  have hsize : (u.vars.toList.foldr Ascending.insert t.vars).size ≤ maxVariables := by
    refine Variables.size_le fun c hc => ?_
    rcases Ascending.mem_foldr_insert.mp hc with hc | hc
    · exact hu c hc
    · exact ht c hc
  obtain ⟨w, hwvars, hwvalue⟩ := t.exists_value_eq hsize fun c hc =>
    Ascending.mem_foldr_insert.mpr (.inr hc)
  obtain ⟨l, hl⟩ := exists_ofTable w form
  have hwvars' : w.vars = t.vars.toList.foldr Ascending.insert u.vars := by
    rw [hwvars]
    refine Ascending.ext_mem fun c => ?_
    rw [Ascending.mem_foldr_insert, Ascending.mem_foldr_insert]
    exact or_comm
  rw [← expression_foldr_insert h u.vars.toList hl hwvars hwvalue]
  exact expression_foldr_insert k t.vars.toList hl hwvars' (hwvalue.trans hvalue)

end Minimization

/-! ## 3. One text, one function -/

/-- Tokens are of one tree only, so they have one value. -/
theorem Yields.value_eq {level level' : Nat} {names names' : List Char} {ts : List Token}
    {f g : (Char → Bool) → Bool} (h : Yields level names ts f) (k : Yields level' names' ts g) :
    f = g := by
  obtain ⟨d, htokens, -, hf⟩ := h
  obtain ⟨e, htokens', -, hg⟩ := k
  have hordered : d.postorder = e.postorder :=
    Except.ok.inj (d.ofInfix_tokens.symm.trans (htokens.trans htokens'.symm ▸ e.ofInfix_tokens))
  funext v
  -- an assignment that gives its value to each variable of the tokens
  have hrow : ∀ c, Token.var c ∈ ts → (Assignment.ofRow (Variables.ofTokens ts)
      (RowIndex.ofBits ((Variables.ofTokens ts).toList.map v))).get? c = some (v c) :=
    fun c hc => Assignment.get?_ofRow_ofBits (Variables.mem_ofTokens.mpr hc)
  have hd := d.evaluate_postorder fun c hc => hrow c (htokens ▸ hc)
  have he := e.evaluate_postorder fun c hc => hrow c (htokens' ▸ hc)
  rw [hordered, he] at hd
  rw [← hf, ← hg, Except.ok.inj hd]

/-- A constant is no expression. -/
theorem Yields.ne_constant {level : Nat} {names : List Char} {text : String}
    {f : (Char → Bool) → Bool} (h : Yields level names (Token.ofSpaced text) f) (b : Bool) :
    text ≠ if b then "1" else "0" := by
  rintro rfl
  obtain ⟨d, htokens, -⟩ := h
  have hrefused : ∃ word, Postfix.ofInfix (Token.ofSpaced (if b then "1" else "0"))
      = .error (.invalidToken word) := by
    cases b
    · exact ⟨"0", by decide⟩
    · exact ⟨"1", by decide⟩
  obtain ⟨word, hword⟩ := hrefused
  rw [← htokens, d.ofInfix_tokens] at hword
  cases hword

namespace Minimization

variable {form : NormalForm} {t u : TruthTable} {m n : Minimization}

/-- **Equal texts are of one function.** -/
theorem value_eq_of_expression_eq (h : ofTable t form = .ok m) (k : ofTable u form = .ok n)
    (ht : ∀ c ∈ t.vars, Token.isVariable c = true)
    (hu : ∀ c ∈ u.vars, Token.isVariable c = true)
    (htext : m.cover.expression = n.cover.expression) : t.value = u.value := by
  by_cases htc : ∃ b, ∀ v, t.value v = b
  · obtain ⟨b, hb⟩ := htc
    have hm := expression_of_constant h hb
    by_cases huc : ∃ b, ∀ v, u.value v = b
    · obtain ⟨c, hc⟩ := huc
      have hn := expression_of_constant k hc
      have hbc : b = c := by
        rw [htext, hn] at hm
        revert hm
        cases b <;> cases c <;> decide
      funext v
      rw [hb, hc, hbc]
    · exact absurd (htext.symm.trans hm) ((yields_expression k hu huc).ne_constant b)
  · have hyields := yields_expression h ht htc
    by_cases huc : ∃ b, ∀ v, u.value v = b
    · obtain ⟨c, hc⟩ := huc
      exact absurd (htext.trans (expression_of_constant k hc)) (hyields.ne_constant c)
    · rw [htext] at hyields
      exact hyields.value_eq (yields_expression k hu huc)

end Minimization

/-! ## 4. Two texts -/

/-- The names of variables. -/
def Variables.alphabet : Variables := ofNames ['a', 'b', 'c', 'd', 'e']

theorem Variables.mem_alphabet {c : Char} (h : Token.isVariable c = true) : c ∈ alphabet :=
  mem_ofNames.mpr (Token.mem_of_isVariable h)

namespace Analysis

variable {s₁ s₂ : String} {a₁ a₂ : Analysis}

/-- **The minimal form is canonical.**  Two texts that are analysed have the same minimal form
exactly when they have the same value under every assignment of the variables, whatever
variables occur in them and however they are written. -/
theorem minimal_eq_iff (h₁ : parse s₁ = .ok a₁) (h₂ : parse s₂ = .ok a₂) (form : NormalForm) :
    a₁.minimal form = a₂.minimal form ↔
      ∀ A : Assignment, (∀ c, Token.isVariable c = true → ∃ b, A.get? c = some b) →
        ∃ b, a₁.expression.eval A = .ok b ∧ a₂.expression.eval A = .ok b := by
  obtain ⟨he₁, ht₁, hform₁⟩ := of_parse h₁
  obtain ⟨he₂, ht₂, hform₂⟩ := of_parse h₂
  have heval : ∀ (A : Assignment) (v : Char → Bool),
      (∀ c, Token.isVariable c = true → A.get? c = some (v c)) →
      a₁.expression.eval A = .ok (a₁.table.value v) ∧
        a₂.expression.eval A = .ok (a₂.table.value v) := by
    intro A v hA
    refine ⟨TruthTable.eval_eq_value he₁ ht₁ fun c hc => hA c ?_,
      TruthTable.eval_eq_value he₂ ht₂ fun c hc => hA c ?_⟩
    · exact Expression.isVariable_of_parse he₁ hc
    · exact Expression.isVariable_of_parse he₂ hc
  have hvars₁ : ∀ c ∈ a₁.table.vars, Token.isVariable c = true :=
    fun c hc => isVariable_of_parse h₁ hc
  have hvars₂ : ∀ c ∈ a₂.table.vars, Token.isVariable c = true :=
    fun c hc => isVariable_of_parse h₂ hc
  constructor
  · intro htext A hA
    have hvalue := Minimization.value_eq_of_expression_eq (hform₁ form) (hform₂ form) hvars₁
      hvars₂ htext
    obtain ⟨hv₁, hv₂⟩ := heval A A.value fun c hc => by
      obtain ⟨b, hb⟩ := hA c hc
      rw [Assignment.value, hb]
      rfl
    exact ⟨_, hv₁, hvalue ▸ hv₂⟩
  · intro hsame
    refine Minimization.expression_eq_of_value_eq (hform₁ form) (hform₂ form) hvars₁ hvars₂ ?_
    funext v
    have hrow : ∀ c, Token.isVariable c = true → (Assignment.ofRow Variables.alphabet
        (RowIndex.ofBits (Variables.alphabet.toList.map v))).get? c = some (v c) :=
      fun c hc => Assignment.get?_ofRow_ofBits (Variables.mem_alphabet hc)
    obtain ⟨hv₁, hv₂⟩ := heval _ v hrow
    obtain ⟨b, hb₁, hb₂⟩ := hsame _ fun c hc => ⟨_, hrow c hc⟩
    rw [hv₁] at hb₁
    rw [hv₂] at hb₂
    rw [Except.ok.inj hb₁, Except.ok.inj hb₂]

/-- A variable without influence is not in the minimal form, and a text with it has the same
values as one without it. -/
theorem minimal_eq_iff_without_influence :
    ∃ a₁ a₂, parse "a & ( b | ! b )" = .ok a₁ ∧ parse "a" = .ok a₂ ∧
      ∀ A : Assignment, (∀ c, Token.isVariable c = true → ∃ b, A.get? c = some b) →
        ∃ b, a₁.expression.eval A = .ok b ∧ a₂.expression.eval A = .ok b := by
  have htext₁ : (parse "a & ( b | ! b )").map (·.minimal .sop) = .ok "a" := by rfl
  have htext₂ : (parse "a").map (·.minimal .sop) = .ok "a" := by rfl
  cases h₁ : parse "a & ( b | ! b )" with
  | error e => simp [h₁, Except.map] at htext₁
  | ok a₁ =>
    cases h₂ : parse "a" with
    | error e => simp [h₂, Except.map] at htext₂
    | ok a₂ =>
      simp only [h₁, Except.map, Except.ok.injEq] at htext₁
      simp only [h₂, Except.map, Except.ok.injEq] at htext₂
      have htext : a₁.minimal .sop = a₂.minimal .sop := htext₁.trans htext₂.symm
      exact ⟨a₁, a₂, rfl, rfl, (minimal_eq_iff h₁ h₂ .sop).mp htext⟩

end Analysis
end TwoLevel
