/-
# A minimal form denotes its function

Every term lies in a prime implicant, so the chosen implicants leave none open; each of them is
an implicant, so they cover nothing else.  Written as a text and read again, they have the
target value of the form on exactly the terms.

* `Pattern.exists_isPrime`: every implicant lies inside a prime one;
* `Minimization.yields_expression`: the text of a form is a tree whose value is the function;
* `Analysis.minimal_denotes`: a text that is analysed has complete covers, and its minimal forms
  denote the same function as it.
-/
import TwoLevel.Analysis
import TwoLevel.Proofs.Coverage
import TwoLevel.Proofs.PrimeImplicants
import TwoLevel.Proofs.Rendering
import TwoLevel.Proofs.TableValues

namespace TwoLevel

/-! ## 1. Prime implicants cover the terms -/

namespace Pattern

/-- **Every implicant lies inside a prime one.**  By induction on the number of fixed positions:
an implicant that is not prime merges with another into a larger one. -/
theorem exists_isPrime {terms : List Nat} {p : Pattern}
    (hterms : ∀ t ∈ terms, t < RowIndex.count p.width) (hp : p.IsImplicant terms) :
    ∃ q : Pattern, q.width = p.width ∧ q.IsPrime terms ∧ p.Inside q := by
  obtain ⟨fixed, hfixed⟩ := Nat.exists_eq_add_of_le p.freeCount_le_width
  induction fixed generalizing p with
  | zero =>
    refine ⟨p, rfl, Classical.byContradiction fun hnot => ?_, fun _ ht => ht⟩
    obtain ⟨q, r, hm, -⟩ := exists_merge?_of_not_isPrime hterms hp hnot
    have hr := freeCount_of_merge? hm
    have hle := r.freeCount_le_width
    rw [← (widths_of_merge? hm).1] at hle
    omega
  | succ fixed ih =>
    by_cases hprime : p.IsPrime terms
    · exact ⟨p, rfl, hprime, fun _ ht => ht⟩
    · obtain ⟨q, r, hm, hq⟩ := exists_merge?_of_not_isPrime hterms hp hprime
      have hw := width_of_merge? hm
      have hc := freeCount_of_merge? hm
      obtain ⟨u, huw, hu, hru⟩ := ih (hw.symm ▸ hterms)
        ((isImplicant_of_merge? hm).mpr ⟨hp, hq⟩) (by omega)
      exact ⟨u, huw.trans hw, hu, fun t ht => hru t (inside_of_merge? hm t ht)⟩

/-- The pattern without fixed positions is the universal one. -/
theorem universal_of_isUniversal {p : Pattern} (h : p.isUniversal = true) :
    universal p.width = .ok p := by
  have hslots : p.slots = List.replicate p.width .free :=
    List.eq_replicate_iff.mpr ⟨rfl, fun s hs => of_decide_eq_true (List.all_eq_true.mp h s hs)⟩
  have hw : p.width ≤ maxVariables := p.length_le
  rw [universal, dif_pos hw, Except.ok.injEq]
  exact ext_slots hslots.symm

end Pattern

namespace ArePrimes

variable {terms : List Nat} {width least : Nat} {is : List Implicant}

/-- A chosen implicant has a prime pattern, and covers the rows of it. -/
theorem of_mem_selected (h : ArePrimes terms width least is) {targets : TermSet} {j : Implicant}
    (hj : j ∈ (Selection.choose is targets).selected) :
    j.pattern.width = width ∧ j.pattern.IsPrime terms ∧
      ∀ t, j.covers t = true ↔ j.pattern.covers t = true := by
  obtain ⟨i, hi, hpattern, hcovered⟩ := Selection.exists_mem_of_mem_selected hj
  obtain ⟨hw, hprime⟩ := h.of_mem hi
  rw [hpattern]
  refine ⟨hw, hprime, fun t => ?_⟩
  rw [← Implicant.covers_iff_of_eq_ofPattern (h.full i hi), Implicant.covers, Implicant.covers,
    hcovered]

/-- Some implicant of the list covers a term. -/
theorem exists_covers (h : ArePrimes terms width 0 is) (hwidth : width ≤ maxVariables)
    (hterms : ∀ t ∈ terms, t < RowIndex.count width) {t : Nat} (ht : t ∈ terms) :
    ∃ i ∈ is, i.covers t = true := by
  obtain ⟨p, hp⟩ : ∃ p, Pattern.ofTerm t width = .ok p :=
    ⟨⟨_, by simpa using hwidth⟩, Pattern.ofTerm_eq_ok_iff.mpr ⟨hwidth, hterms t ht, rfl⟩⟩
  have hpw := Pattern.width_of_ofTerm hp
  have himp : p.IsImplicant terms := fun s hs => (Pattern.covers_of_ofTerm hp s).mp hs ▸ ht
  obtain ⟨q, hqw, hq, hpq⟩ := Pattern.exists_isPrime (hpw.symm ▸ hterms) himp
  obtain ⟨i, hi, rfl⟩ := List.mem_map.mp ((h.mem q).mpr ⟨hqw.trans hpw, Nat.zero_le _, hq⟩)
  exact ⟨i, hi, (Implicant.covers_iff_of_eq_ofPattern (h.full i hi) t).mpr
    (hpq t ((Pattern.covers_of_ofTerm hp t).mpr rfl))⟩

end ArePrimes

/-! ## 2. What has to be covered -/

section Terms

variable {t : TruthTable} {form : NormalForm}

/-- When the function always has its target, the terms are all rows. -/
theorem TruthTable.ofList_terms_eq_range (h : ∀ v, t.value v = form.target) :
    Ascending.ofList (t.terms form)
      = ⟨List.range t.vars.rowCount, List.pairwise_lt_range⟩ := by
  refine Ascending.ext_mem fun i => ?_
  rw [Ascending.mem_ofList, Ascending.mem_def, List.mem_range]
  refine ⟨lt_of_mem_terms, fun hi => ?_⟩
  obtain ⟨v, rfl⟩ := exists_row t.vars hi
  exact mem_terms_iff.mpr (h v)

/-- A function without terms, one whose terms are all rows, and any other. -/
theorem Demand.ofTerms_terms (t : TruthTable) (form : NormalForm) :
    (∀ v, t.value v = !form.target) ∧ ofTerms (t.terms form) t.vars = .nothing ∨
      (∀ v, t.value v = form.target) ∧ ofTerms (t.terms form) t.vars = .everything ∨
      (∃ v, t.value v = form.target) ∧ (∃ v, t.value v = !form.target) ∧
        ofTerms (t.terms form) t.vars = .some (Ascending.ofList (t.terms form)) := by
  have hmem : ∀ v : Char → Bool,
      RowIndex.ofBits (t.vars.toList.map v) ∈ (Ascending.ofList (t.terms form)).toList ↔
        t.value v = form.target :=
    fun v => Ascending.mem_ofList.trans TruthTable.mem_terms_iff
  simp only [ofTerms, ofRows]
  split
  · next hnil =>
    have hnil : (Ascending.ofList (t.terms form)).toList = [] := List.isEmpty_iff.mp hnil
    refine .inl ⟨fun v => Bool.eq_not.mpr fun hv => ?_, rfl⟩
    have hv := (hmem v).mpr hv
    rw [hnil] at hv
    cases hv
  · next hcons =>
    have hsome : ∃ v, t.value v = form.target := by
      obtain ⟨i, hi⟩ := List.exists_mem_of_ne_nil _ fun e => hcons (List.isEmpty_iff.mpr e)
      have hlt := TruthTable.lt_of_mem_terms (Ascending.mem_ofList.mp hi)
      obtain ⟨v, rfl⟩ := TruthTable.exists_row t.vars hlt
      exact ⟨v, (hmem v).mp hi⟩
    split
    · next hall =>
      refine .inr (.inl ⟨fun v => (hmem v).mp ?_, rfl⟩)
      refine mem_of_nodup_of_length (Ascending.ofList (t.terms form)).nodup hall.2 hall.1 ?_
      exact t.length_values ▸ (List.getElem?_eq_some_iff.mp (t.getElem?_values v)).1
    · next hnot =>
      refine .inr (.inr ⟨hsome, Classical.byContradiction fun hnone => hnot ?_, rfl⟩)
      rw [TruthTable.ofList_terms_eq_range fun v =>
        Bool.not_eq_not.mp fun hv => hnone ⟨v, hv⟩]
      exact ⟨List.length_range, fun i hi => List.mem_range.mp hi⟩

end Terms

/-! ## 3. One form of a table -/

namespace Minimization

variable {t : TruthTable} {form : NormalForm} {m : Minimization}

theorem of_ofTable (h : ofTable t form = .ok m) :
    PrimeSearch.run (t.terms form) t.vars.size = .ok m.search ∧
      Cover.select m.primes (t.terms form) t.vars form = .ok m.cover := by
  unfold ofTable at h
  cases hs : PrimeSearch.run (t.terms form) t.vars.size with
  | error e => simp [hs, bind, Except.bind] at h
  | ok search =>
    simp only [hs, bind, Except.bind] at h
    cases hc : Cover.select search.primes (t.terms form) t.vars form with
    | error e => simp [hc] at h
    | ok cover =>
      simp only [hc] at h
      cases h
      exact ⟨rfl, hc⟩

theorem arePrimes (h : ofTable t form = .ok m) :
    ArePrimes (t.terms form) t.vars.size 0 m.primes :=
  PrimeSearch.arePrimes_of_run (of_ofTable h).1

/-- The choice among the prime implicants for the terms of a form. -/
def choice (t : TruthTable) (form : NormalForm) (m : Minimization) : Selection :=
  .choose m.primes (Ascending.ofList (t.terms form))

/-- The cover of a constant function, and that of any other. -/
theorem cases_cover (h : ofTable t form = .ok m) :
    (∀ v, t.value v = !form.target) ∧ m.cover = .constant form.empty ∨
      (∀ v, t.value v = form.target) ∧ m.cover = .constant form.full ∨
      (∃ v, t.value v = form.target) ∧ (∃ v, t.value v = !form.target) ∧
        Cover.expressionOf (choice t form m).selected t.vars form = .ok m.cover.expression ∧
        m.cover.uncovered = (choice t form m).uncovered := by
  have hc := (of_ofTable h).2
  rcases Demand.ofTerms_terms t form with ⟨hv, hd⟩ | ⟨hv, hd⟩ | ⟨hv, hw, hd⟩
  · rw [Cover.select, hd, Cover.ofDemand] at hc
    exact .inl ⟨hv, (Except.ok.inj hc).symm⟩
  · rw [Cover.select, hd, Cover.ofDemand] at hc
    exact .inr (.inl ⟨hv, (Except.ok.inj hc).symm⟩)
  · obtain ⟨htext, -, huncovered⟩ := Cover.of_select_some hd hc
    exact .inr (.inr ⟨hv, hw, htext, huncovered⟩)

/-- **The choice leaves no term open.** -/
theorem uncovered_choice (h : ofTable t form = .ok m) :
    (choice t form m).uncovered = .empty := by
  refine Ascending.ext_mem fun i => ?_
  rw [choice, Selection.mem_uncovered_choose, Ascending.mem_ofList]
  refine iff_of_false ?_ Ascending.not_mem_empty
  rintro ⟨hi, hnone⟩
  obtain ⟨j, hj, hji⟩ := (arePrimes h).exists_covers t.size_le
    (fun s hs => TruthTable.lt_of_mem_terms hs) hi
  rw [hnone j hj] at hji
  cases hji

/-- A cover of a form is complete. -/
theorem uncovered_cover (h : ofTable t form = .ok m) : m.cover.uncovered = .empty := by
  rcases cases_cover h with ⟨-, hc⟩ | ⟨-, hc⟩ | ⟨-, -, -, hc⟩
  · rw [hc]
    rfl
  · rw [hc]
    rfl
  · rw [hc, uncovered_choice h]

/-- Nothing is told of terms that are left open. -/
theorem level_ne_warn (h : ofTable t form = .ok m) {message : Message}
    (hm : message ∈ Cover.log m.primes (t.terms form) t.vars) : message.level ≠ .warn := by
  unfold Cover.log at hm
  rcases Demand.ofTerms_terms t form with ⟨-, hd⟩ | ⟨-, hd⟩ | ⟨-, -, hd⟩
  · simp [hd] at hm
  · simp [hd] at hm
  · have hopen := uncovered_choice h
    rw [choice] at hopen
    simp only [hd, Selection.log, hopen, List.mem_append, List.mem_map] at hm
    rcases hm with (⟨e, -, rfl⟩ | ⟨p, -, rfl⟩) | hm
    · exact Level.noConfusion
    · exact Level.noConfusion
    · cases hm

/-- A constant function is written as its value. -/
theorem expression_of_constant (h : ofTable t form = .ok m) {b : Bool} (hb : ∀ v, t.value v = b) :
    m.cover.expression = if b then "1" else "0" := by
  rcases cases_cover h with ⟨hv, hc⟩ | ⟨hv, hc⟩ | ⟨⟨v, hv⟩, ⟨w, hw⟩, -⟩
  · obtain rfl : b = !form.target := (hb fun _ => true).symm.trans (hv _)
    rw [hc]
    cases form <;> rfl
  · obtain rfl : b = form.target := (hb fun _ => true).symm.trans (hv _)
    rw [hc]
    cases form <;> rfl
  · rw [hb v] at hv
    rw [hb w, hv] at hw
    exact absurd hw (by cases form.target <;> decide)

/-- **The function has its target where a chosen implicant covers the row.** -/
theorem value_eq_target_iff (h : ofTable t form = .ok m) (v : Char → Bool) :
    t.value v = form.target ↔ ∃ j ∈ (choice t form m).selected,
      Slot.fits j.pattern.slots (t.vars.toList.map v) = true := by
  have hfits : ∀ j ∈ (choice t form m).selected,
      (Slot.fits j.pattern.slots (t.vars.toList.map v) = true ↔
        j.covers (RowIndex.ofBits (t.vars.toList.map v)) = true) := by
    intro j hj
    obtain ⟨hjw, -, hcov⟩ := (arePrimes h).of_mem_selected hj
    have hlen : (t.vars.toList.map v).length = j.pattern.width := by
      rw [List.length_map, hjw, Ascending.size]
    rw [hcov, Pattern.covers_ofBits hlen]
  constructor
  · intro hv
    refine Classical.byContradiction fun hnone => ?_
    have hopen : RowIndex.ofBits (t.vars.toList.map v) ∈ (choice t form m).uncovered := by
      refine Selection.mem_uncovered.mpr ⟨?_, fun j hj => Bool.eq_false_iff.mpr fun hjv => ?_⟩
      · exact Ascending.mem_ofList.mpr (TruthTable.mem_terms_iff.mpr hv)
      · exact hnone ⟨j, hj, (hfits j hj).mpr hjv⟩
    rw [uncovered_choice h] at hopen
    exact Ascending.not_mem_empty hopen
  · rintro ⟨j, hj, hjv⟩
    obtain ⟨-, hprime, hcov⟩ := (arePrimes h).of_mem_selected hj
    exact TruthTable.mem_terms_iff.mp (hprime.1 _ ((hcov _).mp ((hfits j hj).mp hjv)))

/-- A chosen implicant has a fixed position when some row is no term. -/
theorem isUniversal_of_mem_selected (h : ofTable t form = .ok m) {j : Implicant}
    (hj : j ∈ (choice t form m).selected) (hno : ∃ v, t.value v = !form.target) :
    j.pattern.isUniversal = false := by
  obtain ⟨v, hv⟩ := hno
  refine Bool.eq_false_iff.mpr fun hu => ?_
  have hfits : Slot.fits j.pattern.slots (t.vars.toList.map v) = true := by
    rw [(Pattern.slots_of_universal (Pattern.universal_of_isUniversal hu)).2,
      Pattern.fits_replicate_free, List.length_map, ((arePrimes h).of_mem_selected hj).1,
      Ascending.size]
  have htarget := (value_eq_target_iff h v).mpr ⟨j, hj, hfits⟩
  exact absurd (htarget.symm.trans hv) (by cases form.target <;> decide)

/-- A function that is not constant has the cover of the choice. -/
theorem selected_cover (h : ofTable t form = .ok m) (hno : ¬ ∃ b, ∀ v, t.value v = b) :
    m.cover.selected = (choice t form m).selected := by
  rcases Demand.ofTerms_terms t form with ⟨hv, -⟩ | ⟨hv, -⟩ | ⟨-, -, hd⟩
  · exact absurd ⟨_, hv⟩ hno
  · exact absurd ⟨_, hv⟩ hno
  · exact (Cover.of_select_some hd (of_ofTable h).2).2.1

/-- A function that is not constant is written as the chosen implicants. -/
theorem expressionOf_selected (h : ofTable t form = .ok m) (hno : ¬ ∃ b, ∀ v, t.value v = b) :
    Cover.expressionOf (choice t form m).selected t.vars form = .ok m.cover.expression := by
  rcases cases_cover h with ⟨hv, -⟩ | ⟨hv, -⟩ | ⟨-, -, htext, -⟩
  · exact absurd ⟨_, hv⟩ hno
  · exact absurd ⟨_, hv⟩ hno
  · exact htext

/-- A function that is not constant has both values. -/
theorem exists_value {b : Bool} (hno : ¬ ∃ b, ∀ v, t.value v = b) : ∃ v, t.value v = b := by
  refine Classical.byContradiction fun hnone => hno ⟨!b, fun v => ?_⟩
  exact Bool.eq_not.mpr fun hv => hnone ⟨v, hv⟩

/-- **The text of a form is a tree whose value is the function**, when this is not constant. -/
theorem yields_expression (h : ofTable t form = .ok m)
    (hvars : ∀ c ∈ t.vars, Token.isVariable c = true) (hno : ¬ ∃ b, ∀ v, t.value v = b) :
    Yields form.termOperator.precedence t.vars.toList (Token.ofSpaced m.cover.expression)
      t.value := by
  have hne : (choice t form m).selected ≠ [] := by
    obtain ⟨v, hv⟩ := exists_value (b := form.target) hno
    obtain ⟨j, hj, -⟩ := (value_eq_target_iff h v).mp hv
    exact List.ne_nil_of_mem hj
  obtain ⟨text, f, htext, ⟨d, htokens, hnames, hvalue⟩, hf⟩ :=
    Cover.exists_yields_expressionOf hne (fun j hj => ((arePrimes h).of_mem_selected hj).1)
      (fun j hj => isUniversal_of_mem_selected h hj (exists_value hno)) hvars
  obtain rfl : text = m.cover.expression :=
    Except.ok.inj (htext.symm.trans (expressionOf_selected h hno))
  refine ⟨d, htokens, hnames, fun u => ?_⟩
  have hiff := (hf u).trans (value_eq_target_iff h u).symm
  rw [hvalue]
  revert hiff
  cases f u <;> cases t.value u <;> cases form.target <;> decide

end Minimization

/-! ## 4. Reading a tree -/

/-- **A text that is read as a tree is an expression**, and its table over variables that
contain those of the tree has the values of the tree. -/
theorem Yields.exists_parse {level : Nat} {text : String} {vs : Variables}
    {f : (Char → Bool) → Bool} (h : Yields level vs.toList (Token.ofText text) f) :
    ∃ e, Expression.parse text = .ok e ∧ (∀ c ∈ e.vars, c ∈ vs) ∧
      ∀ (a : Assignment) (v : Char → Bool), (∀ c ∈ vs, a.get? c = some (v c)) →
        e.eval a = .ok (f v) := by
  obtain ⟨d, htokens, hnames, hvalue⟩ := h
  have hordered : Postfix.ofInfix (Token.ofText text) = .ok d.postorder := by
    rw [← htokens, d.ofInfix_tokens]
  refine ⟨⟨text, Variables.ofText text, d.postorder⟩,
    Expression.parse_eq_ok_iff.mpr ⟨_, hordered, rfl⟩,
    fun c hc => hnames c (Variables.mem_ofTokens.mp hc), fun a v ha => ?_⟩
  rw [← hvalue v]
  refine d.evaluate_postorder fun c hc => ha c (hnames c ?_)
  rwa [htokens] at hc

/-- The table of an expression that has the values of a function over the variables of a
table of it. -/
theorem TruthTable.exists_ofExpressionOver {t : TruthTable} {e : Expression}
    (he : ∀ (a : Assignment) (v : Char → Bool), (∀ c ∈ t.vars, a.get? c = some (v c)) →
      e.eval a = .ok (t.value v)) : ofExpressionOver t.vars e = .ok t := by
  refine ofExpressionOver_eq_ok_iff.mpr ⟨t.size_le, rfl, ?_⟩
  refine List.ext_getElem? fun i => ?_
  rw [List.getElem?_map, List.getElem?_map]
  rcases Nat.lt_or_ge i t.vars.rowCount with hi | hi
  · obtain ⟨v, rfl⟩ := exists_row t.vars hi
    rw [List.getElem?_range hi, t.getElem?_values, Option.map_some, Option.map_some,
      he _ v fun c hc => Assignment.get?_ofRow_ofBits hc]
  · rw [List.getElem?_eq_none (by simpa using hi),
      List.getElem?_eq_none (by rw [t.length_values]; exact hi), Option.map_none, Option.map_none]

/-! ## 5. The analysis of a text -/

namespace Analysis

variable {source : String} {a : Analysis}

/-- What an analysis is made of. -/
theorem of_parse (h : parse source = .ok a) :
    Expression.parse source = .ok a.expression ∧
      TruthTable.ofExpression a.expression = .ok a.table ∧
      ∀ form, Minimization.ofTable a.table form = .ok (a.minimization form) := by
  unfold parse at h
  cases he : Expression.parse source with
  | error e => simp [he, bind, Except.bind] at h
  | ok e =>
    simp only [he, bind, Except.bind, ofExpression] at h
    split at h
    · cases h
    · split at h
      · cases h
      · cases ht : TruthTable.ofExpression e with
        | error f => simp [ht] at h
        | ok t =>
          simp only [ht] at h
          cases hs : Minimization.ofTable t .sop with
          | error f => simp [hs] at h
          | ok s =>
            simp only [hs] at h
            cases hp : Minimization.ofTable t .pos with
            | error f => simp [hp] at h
            | ok p =>
              simp only [hp] at h
              cases h
              refine ⟨rfl, ht, fun form => ?_⟩
              cases form
              · exact hs
              · exact hp

theorem vars_of_parse (h : parse source = .ok a) : a.vars = a.expression.vars :=
  (TruthTable.ofExpressionOver_eq_ok_iff.mp (of_parse h).2.1).2.1

theorem isVariable_of_parse (h : parse source = .ok a) {c : Char} (hc : c ∈ a.table.vars) :
    Token.isVariable c = true :=
  Expression.isVariable_of_parse (of_parse h).1 (vars_of_parse h ▸ hc)

/-- An analysis that succeeds never warns. -/
theorem level_ne_warn_of_parse (h : parse source = .ok a) {m : Message}
    (hm : m ∈ parseLog source) : m.level ≠ .warn := by
  obtain ⟨he, -, hform⟩ := of_parse h
  have ha : ofExpression a.expression = .ok a := by
    rw [parse, he] at h
    exact h
  have hsearch : ∀ (s : PrimeSearch), m ∈ s.log → m.level ≠ .warn := by
    intro s hs
    cases s with
    | nothing => cases hs
    | everything p => cases hs
    | generations gs =>
      obtain ⟨g, -, hg⟩ := List.mem_flatMap.mp hs
      rcases List.mem_append.mp hg with hg | hg
      · obtain ⟨merge, -, rfl⟩ := List.mem_map.mp hg
        exact Level.noConfusion
      · rw [List.mem_singleton.mp hg]
        exact Level.noConfusion
  simp only [parseLog, he, ha, log, Expression.log, TruthTable.log, List.mem_append,
    List.mem_singleton] at hm
  rcases hm with rfl | ((((rfl | hm) | hm) | hm) | hm) | rfl
  · exact Level.noConfusion
  · exact Level.noConfusion
  · exact hsearch _ hm
  · exact hsearch _ hm
  · exact Minimization.level_ne_warn (hform .sop) hm
  · exact Minimization.level_ne_warn (hform .pos) hm
  · exact Level.noConfusion

/-- **A minimal form denotes the function of its source.**  Where the analysis of a text
succeeds, the cover of each form is complete and nothing warns.  A constant function is written
as its value.  Any other form, with a blank after each negation sign, is an expression in the
variables of the text, and its table over them is the table of the text. -/
theorem minimal_denotes (h : parse source = .ok a) (form : NormalForm) :
    (∃ e, Expression.parse source = .ok e ∧ a.vars = e.vars ∧
      TruthTable.ofExpression e = .ok a.table) ∧
    (a.cover form).uncovered = .empty ∧
    (∀ m ∈ parseLog source, m.level ≠ .warn) ∧
    (∀ b, (∀ x ∈ a.table.values, x = b) → a.minimal form = if b then "1" else "0") ∧
    ((¬ ∃ b, ∀ x ∈ a.table.values, x = b) →
      ∃ e, Expression.parse (Text.spaced (a.minimal form)) = .ok e ∧ (∀ c ∈ e.vars, c ∈ a.vars) ∧
        ∃ t, TruthTable.ofExpressionOver a.vars e = .ok t ∧ t.values = a.table.values) := by
  obtain ⟨he, ht, hform⟩ := of_parse h
  refine ⟨⟨_, he, vars_of_parse h, ht⟩, Minimization.uncovered_cover (hform form),
    fun m hm => level_ne_warn_of_parse h hm, fun b hb => ?_, fun hno => ?_⟩
  · exact Minimization.expression_of_constant (hform form) fun v =>
      hb _ (TruthTable.mem_values.mpr ⟨v, rfl⟩)
  · have hvalue : ¬ ∃ b, ∀ v, a.table.value v = b := by
      rintro ⟨b, hb⟩
      refine hno ⟨b, fun x hx => ?_⟩
      obtain ⟨v, rfl⟩ := TruthTable.mem_values.mp hx
      exact hb v
    have hyields := Minimization.yields_expression (hform form)
      (fun c hc => isVariable_of_parse h hc) hvalue
    obtain ⟨e, hparse, hvars, heval⟩ := Yields.exists_parse hyields
    exact ⟨e, hparse, hvars, a.table, TruthTable.exists_ofExpressionOver heval, rfl⟩

/-- The product of sums of a function of three variables is read again as this function. -/
theorem minimal_denotes_three_variables :
    ∃ a, parse "( a | b ) & ! c" = .ok a ∧
      a.table.values = [false, false, true, false, true, false, true, false] ∧
      ∃ e t, Expression.parse (Text.spaced (a.minimal .pos)) = .ok e ∧
        TruthTable.ofExpressionOver a.vars e = .ok t ∧ t.values = a.table.values := by
  have hvalues : (parse "( a | b ) & ! c").map (·.table.values)
      = .ok [false, false, true, false, true, false, true, false] := by rfl
  cases h : parse "( a | b ) & ! c" with
  | error e => simp [h, Except.map] at hvalues
  | ok a =>
    simp only [h, Except.map, Except.ok.injEq] at hvalues
    have hno : ¬ ∃ b, ∀ x ∈ a.table.values, x = b := by
      rw [hvalues]
      decide
    obtain ⟨e, he, -, t, ht, hrows⟩ := (minimal_denotes h .pos).2.2.2.2 hno
    exact ⟨a, rfl, hvalues, e, t, he, ht, hrows⟩

end Analysis
end TwoLevel
