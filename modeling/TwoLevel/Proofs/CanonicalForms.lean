/-
# What the canonical forms say

A canonical form has one term for each row that is a term of the form, and the term names all
variables.  The text is cut at the separator between terms into these terms again, and the values
of the literals tell the row of each.  So a canonical form, read with its variables, is as good as
the table.

* `Text.pieces_intercalate`: joined texts are cut into the same texts;
* `TruthTable.isRowTerm_canonicalText`: a term has the target of the form on its own row only;
* `TruthTable.values_eq_of_canonicalText_eq`: equal canonical forms are of equal tables;
* `TruthTable.canonical_forms_spec`: both forms of a table.
-/
import TwoLevel.Proofs.TableExtension

namespace TwoLevel

/-! ## 1. Cutting a text at a separator -/

namespace Text

/-- The pieces of some characters between the occurrences of a separator, found from the left.
So many characters of an occurrence are left over at the beginning. -/
def cutFrom (sep : List Char) : Nat → List Char → List (List Char)
  | _, [] => [[]]
  | left + 1, _ :: cs => cutFrom sep left cs
  | 0, c :: cs =>
    if sep.isPrefixOf (c :: cs) then [] :: cutFrom sep (sep.length - 1) cs
    else (cutFrom sep 0 cs).modifyHead (c :: ·)

/-- The pieces of a text between the occurrences of a separator. -/
def pieces (sep text : String) : List String :=
  (cutFrom sep.toList 0 text.toList).map String.ofList

example : pieces " | " "a | !b |  | c" = ["a", "!b", "", "c"] := by decide

section Sign

/-! The separators between literals and between terms are a sign with a space on each side.  A
piece that does not hold the sign is found again. -/

variable {sign : Char} {p cs : List Char}

/-- Where the sign does not come second, no separator begins. -/
theorem isPrefixOf_eq_false {c : Char} (h : cs.head? ≠ some sign) :
    [' ', sign, ' '].isPrefixOf (c :: cs) = false := by
  cases cs with
  | nil => simp [List.isPrefixOf]
  | cons d cs =>
    have hd : sign ≠ d := by simpa [eq_comm] using h
    simp [List.isPrefixOf, hd]

theorem cutFrom_of_notMem (hp : sign ∉ p) : cutFrom [' ', sign, ' '] 0 p = [p] := by
  induction p with
  | nil => rfl
  | cons c p ih =>
    have hrest : sign ∉ p := fun h => hp (List.mem_cons_of_mem c h)
    have hno := isPrefixOf_eq_false (c := c) fun h => hrest (List.mem_of_head? h)
    simp [cutFrom, hno, ih hrest]

theorem cutFrom_append (hsign : sign ≠ ' ') (hp : sign ∉ p) (cs : List Char) :
    cutFrom [' ', sign, ' '] 0 (p ++ ' ' :: sign :: ' ' :: cs)
      = p :: cutFrom [' ', sign, ' '] 0 cs := by
  induction p with
  | nil => simp [cutFrom]
  | cons c p ih =>
    have hrest : sign ∉ p := fun h => hp (List.mem_cons_of_mem c h)
    have hhead : (p ++ ' ' :: sign :: ' ' :: cs).head? ≠ some sign := by
      cases p with
      | nil => simpa using hsign.symm
      | cons d p => simpa [eq_comm] using fun h : sign = d => hrest (by simp [h])
    rw [List.cons_append, cutFrom, isPrefixOf_eq_false hhead, ih hrest]
    rfl

/-- **Joined texts are cut into the same texts**, unless one of them holds the sign. -/
theorem pieces_intercalate {sep : String} (hsep : sep.toList = [' ', sign, ' '])
    (hsign : sign ≠ ' ') {texts : List String} (hne : texts ≠ [])
    (htexts : ∀ s ∈ texts, sign ∉ s.toList) : pieces sep (sep.intercalate texts) = texts := by
  have hcut : ∀ s : String, ∀ texts : List String, (∀ r ∈ s :: texts, sign ∉ r.toList) →
      cutFrom [' ', sign, ' '] 0 (sep.intercalate (s :: texts)).toList
        = (s :: texts).map String.toList := by
    intro s texts
    induction texts generalizing s with
    | nil =>
      intro h
      rw [String.intercalate_singleton, cutFrom_of_notMem (h s (by simp))]
      rfl
    | cons r texts ih =>
      intro h
      have htext : (sep.intercalate (s :: r :: texts)).toList
          = s.toList ++ ' ' :: sign :: ' ' :: (sep.intercalate (r :: texts)).toList := by
        simp [String.intercalate_cons_cons, hsep]
      rw [htext, cutFrom_append hsign (h s (by simp)),
        ih r fun q hq => h q (List.mem_cons_of_mem s hq)]
      rfl
  cases texts with
  | nil => exact absurd rfl hne
  | cons s texts =>
    rw [pieces, hsep, hcut s texts htexts, List.map_map]
    simp [Function.comp_def]

/-- Texts of the same number are told apart when they are joined. -/
theorem eq_of_intercalate_eq {sep : String} (hsep : sep.toList = [' ', sign, ' '])
    (hsign : sign ≠ ' ') {texts others : List String} (hlen : texts.length = others.length)
    (htexts : ∀ s ∈ texts, sign ∉ s.toList) (hothers : ∀ s ∈ others, sign ∉ s.toList)
    (h : sep.intercalate texts = sep.intercalate others) : texts = others := by
  rcases eq_or_ne texts [] with rfl | hne
  · exact (List.eq_nil_of_length_eq_zero hlen.symm).symm
  · have hne' : others ≠ [] := fun hnil =>
      hne (List.eq_nil_of_length_eq_zero (by simp [hlen, hnil]))
    rw [← pieces_intercalate hsep hsign hne htexts, h, pieces_intercalate hsep hsign hne' hothers]

end Sign
end Text

/-! ## 2. The signs of logic -/

/-- The sign between the terms of a form; the other sign stands between literals. -/
def NormalForm.termSign : NormalForm → Char
  | .sop => '∨'
  | .pos => '∧'

namespace NormalForm

theorem toList_termSeparator (form : NormalForm) :
    (form.termSeparator .logical).toList = [' ', form.termSign, ' '] := by
  cases form <;> rfl

theorem toList_literalSeparator (form : NormalForm) :
    (form.literalSeparator .logical).toList = [' ', form.dual.termSign, ' '] := by
  cases form <;> rfl

theorem termSign_ne_space (form : NormalForm) : form.termSign ≠ ' ' := by
  cases form <;> decide

end NormalForm

namespace Literal

variable {l k : Literal} {ls ks : List Literal} {form : NormalForm}

/-- The text of a literal holds no sign of an operator of two operands. -/
theorem termSign_notMem_text (h : Token.isVariable l.name = true) (form : NormalForm) :
    form.termSign ∉ (l.text .logical).toList := by
  have hname : form.termSign ≠ l.name := by
    intro e
    rw [← e] at h
    revert h
    cases form <;> decide
  have hnot : form.termSign ∉ Style.logical.negation.toList := by cases form <;> decide
  unfold text
  split
  · simpa [hname] using hnot
  · simpa using hname

/-- A literal is told by its name and its text. -/
theorem eq_of_text_eq (hname : l.name = k.name) (h : l.text .logical = k.text .logical) :
    l = k := by
  have hlen := congrArg String.length h
  obtain ⟨c, b⟩ := l
  obtain ⟨d, b'⟩ := k
  obtain rfl : c = d := hname
  cases b <;> cases b' <;> first | rfl | simp [text, Style.logical] at hlen

theorem eq_of_map_text_eq (hnames : ls.map name = ks.map name)
    (h : ls.map (text .logical) = ks.map (text .logical)) : ls = ks := by
  induction ls generalizing ks with
  | nil => exact (List.map_eq_nil_iff.mp hnames.symm).symm
  | cons l ls ih =>
    cases ks with
    | nil => cases hnames
    | cons k ks =>
      obtain ⟨hl, hls⟩ := List.cons.inj hnames
      obtain ⟨ht, hts⟩ := List.cons.inj h
      rw [eq_of_text_eq hl ht, ih hls hts]

/-- A term of a canonical form is told by its names and its text. -/
theorem eq_of_canonicalText_eq (hnames : ls.map name = ks.map name)
    (hls : ∀ l ∈ ls, Token.isVariable l.name = true)
    (hks : ∀ k ∈ ks, Token.isVariable k.name = true)
    (h : canonicalText form ls = canonicalText form ks) : ls = ks := by
  have hjoined : joined .logical form ls = joined .logical form ks := by
    refine String.toList_inj.mp ?_
    simpa [canonicalText] using congrArg String.toList h
  have hlen : (ls.map (text .logical)).length = (ks.map (text .logical)).length := by
    simpa using congrArg List.length hnames
  refine eq_of_map_text_eq hnames (Text.eq_of_intercalate_eq form.toList_literalSeparator
    form.dual.termSign_ne_space hlen ?_ ?_ hjoined)
  · simpa using fun l hl => termSign_notMem_text (hls l hl) form.dual
  · simpa using fun k hk => termSign_notMem_text (hks k hk) form.dual

/-- A term of a canonical form does not hold the sign between terms. -/
theorem termSign_notMem_canonicalText (hls : ∀ l ∈ ls, Token.isVariable l.name = true) :
    form.termSign ∉ (canonicalText form ls).toList := by
  have hjoined : form.termSign ∉ (joined .logical form ls).toList := by
    intro hmem
    rcases Text.mem_intercalate hmem with hsep | ⟨s, hs, hmem⟩
    · revert hsep
      cases form <;> decide
    · obtain ⟨l, hl, rfl⟩ := List.mem_map.mp hs
      exact termSign_notMem_text (hls l hl) form hmem
  have hparens : form.termSign ≠ '(' ∧ form.termSign ≠ ')' := by cases form <;> decide
  simpa [canonicalText, hparens] using hjoined

end Literal

/-! ## 3. The term of a row -/

/-- Whether a text is the term of a row: in parentheses, each variable once and in order, negated
or not, with a separator between them, and such that all of these literals have a given value on
this row and on no other. -/
def IsRowTerm (separator : String) (target : Bool) (vs : Variables) (row : Nat) (text : String) :
    Prop :=
  row < 2 ^ vs.size ∧ ∃ ls : List Literal, ls.map Literal.name = vs.toList ∧
    text = "(" ++ separator.intercalate (ls.map (Literal.text .logical)) ++ ")" ∧
    ∀ i < 2 ^ vs.size,
      (∀ l ∈ ls, l.value (Assignment.ofRow vs i).value = target) ↔ i = row

/-- A text is the term of one row at most. -/
theorem leftUnique_isRowTerm {vs : Variables} (hvs : ∀ c ∈ vs, Token.isVariable c = true)
    (form : NormalForm) :
    Relator.LeftUnique (IsRowTerm (form.literalSeparator .logical) form.target vs) := by
  rintro i j text ⟨hi, ls, hls, rfl, hrow⟩ ⟨hj, ks, hks, htext, hrow'⟩
  have hletters : ∀ {ls : List Literal}, ls.map Literal.name = vs.toList →
      ∀ l ∈ ls, Token.isVariable l.name = true := by
    intro ls hls l hl
    have hmem : l.name ∈ vs.toList := hls ▸ List.mem_map_of_mem hl
    exact hvs _ hmem
  obtain rfl : ls = ks :=
    @Literal.eq_of_canonicalText_eq ls ks form (hls.trans hks.symm) (hletters hls) (hletters hks)
      htext
  exact (hrow' i hi).mp ((hrow i hi).mpr rfl)

namespace TruthTable

variable {t u : TruthTable} {vs : Variables} {form : NormalForm} {i j : Nat}

/-- The literals of a row have the target of the form together on this row only. -/
theorem rowLiterals_value_iff (hi : i < 2 ^ vs.size) (hj : j < 2 ^ vs.size) :
    (∀ l ∈ rowLiterals form (.ofRow vs i), l.value (Assignment.ofRow vs j).value = form.target) ↔
      j = i := by
  have hbits : (∀ l ∈ rowLiterals form (.ofRow vs i),
      l.value (Assignment.ofRow vs j).value = form.target) ↔
        RowIndex.bits vs.size i = RowIndex.bits vs.size j := by
    have hnames := congrArg (List.map (Assignment.ofRow vs j).value) (Assignment.names_ofRow vs i)
    rw [Assignment.map_value_ofRow, Assignment.names, List.map_map] at hnames
    rw [← hnames, ← Assignment.values_ofRow, Assignment.values, List.map_inj_left, rowLiterals,
      List.forall_mem_map]
    exact forall₂_congr fun p _ => Literal.value_ofValue
  rw [hbits]
  rw [← Variables.rowCount_eq] at hi hj
  exact ⟨fun h => RowIndex.bits_inj hj hi h.symm, fun h => h ▸ rfl⟩

theorem map_name_rowLiterals (form : NormalForm) (vs : Variables) (i : Nat) :
    (rowLiterals form (.ofRow vs i)).map Literal.name = vs.toList := by
  rw [← Assignment.names_ofRow vs i, rowLiterals, List.map_map]
  rfl

/-- **The term that is written for a row is the term of this row.** -/
theorem isRowTerm_canonicalText (form : NormalForm) (hi : i < 2 ^ vs.size) :
    IsRowTerm (form.literalSeparator .logical) form.target vs i
      (Literal.canonicalText form (rowLiterals form (.ofRow vs i))) :=
  ⟨hi, _, map_name_rowLiterals form vs i, rfl, fun _ hj => rowLiterals_value_iff hi hj⟩

/-! ## 4. The forms of a table -/

theorem canonicalTerms_eq_nil_iff : t.canonicalTerms form = [] ↔ t.terms form = [] :=
  List.map_eq_nil_iff

theorem canonicalText_of_terms_eq_nil (h : t.terms form = []) :
    t.canonicalText form = form.empty := by
  rw [canonicalText, canonicalTerms_eq_nil_iff.mpr h]

theorem canonicalText_of_terms_ne_nil (h : t.terms form ≠ []) :
    t.canonicalText form = (form.termSeparator .logical).intercalate (t.canonicalTerms form) := by
  rw [canonicalText]
  split
  · next hnil => exact absurd (canonicalTerms_eq_nil_iff.mp hnil) h
  · rfl

/-- **A canonical form is cut into its terms.** -/
theorem pieces_canonicalText (hvs : ∀ c ∈ t.vars, Token.isVariable c = true)
    (h : t.terms form ≠ []) :
    Text.pieces (form.termSeparator .logical) (t.canonicalText form) = t.canonicalTerms form := by
  rw [canonicalText_of_terms_ne_nil h]
  refine Text.pieces_intercalate form.toList_termSeparator form.termSign_ne_space
    (mt canonicalTerms_eq_nil_iff.mp h) fun s hs => ?_
  obtain ⟨i, -, rfl⟩ := List.mem_map.mp hs
  refine Literal.termSign_notMem_canonicalText fun l hl => hvs l.name ?_
  have hmem : l.name ∈ (rowLiterals form (.ofRow t.vars i)).map Literal.name :=
    List.mem_map_of_mem hl
  rwa [map_name_rowLiterals] at hmem

theorem forall₂_isRowTerm (hvs : ∀ c ∈ t.vars, Token.isVariable c = true)
    (h : t.terms form ≠ []) :
    List.Forall₂ (IsRowTerm (form.literalSeparator .logical) form.target t.vars) (t.terms form)
      (Text.pieces (form.termSeparator .logical) (t.canonicalText form)) := by
  rw [pieces_canonicalText hvs h, canonicalTerms, List.forall₂_map_right_iff, List.forall₂_same]
  intro i hi
  exact isRowTerm_canonicalText form (Variables.rowCount_eq t.vars ▸ lt_of_mem_terms hi)

/-- A form with terms is not the constant of a form without. -/
theorem canonicalText_ne_empty (hvs : ∀ c ∈ t.vars, Token.isVariable c = true)
    (h : t.terms form ≠ []) : t.canonicalText form ≠ form.empty := by
  intro hempty
  have hpieces : Text.pieces (form.termSeparator .logical) form.empty = [form.empty] := by
    cases form <;> decide
  have hmem : form.empty ∈ t.canonicalTerms form := by
    rw [← pieces_canonicalText hvs h, hempty, hpieces]
    exact List.mem_singleton_self _
  obtain ⟨i, -, hi⟩ := List.mem_map.mp hmem
  have hhead := congrArg (·.toList.head?) hi
  cases form <;> simp [Literal.canonicalText, NormalForm.empty] at hhead

/-- **Equal canonical forms are of equal tables.** -/
theorem values_eq_of_canonicalText_eq (hvars : u.vars = t.vars)
    (hvs : ∀ c ∈ t.vars, Token.isVariable c = true)
    (h : u.canonicalText form = t.canonicalText form) : u.values = t.values := by
  have hus : ∀ c ∈ u.vars, Token.isVariable c = true := hvars ▸ hvs
  have hterms : u.terms form = t.terms form := by
    by_cases ht : t.terms form = []
    · rw [canonicalText_of_terms_eq_nil ht] at h
      rw [ht]
      exact Classical.byContradiction fun hu => canonicalText_ne_empty hus hu h
    · by_cases hu : u.terms form = []
      · rw [canonicalText_of_terms_eq_nil hu] at h
        exact absurd h.symm (canonicalText_ne_empty hvs ht)
      · have hrows := forall₂_isRowTerm hus hu
        rw [hvars, h] at hrows
        exact List.left_unique_forall₂' (leftUnique_isRowTerm hvs form) hrows
          (forall₂_isRowTerm hvs ht)
  have hlen : u.values.length = t.values.length := by
    rw [u.length_values, t.length_values, hvars]
  refine List.ext_getElem hlen fun i hu ht => ?_
  have hvalue : u.values[i]? = some form.target ↔ t.values[i]? = some form.target := by
    rw [← mem_terms, ← mem_terms, hterms]
  rw [List.getElem?_eq_getElem hu, List.getElem?_eq_getElem ht, Option.some.injEq,
    Option.some.injEq] at hvalue
  have hbool : ∀ b c d : Bool, (b = d ↔ c = d) → b = c := by decide
  exact hbool _ _ _ hvalue

/-- The terms of the two forms are the rows, each in one of them. -/
theorem mem_terms_or_mem_terms (t : TruthTable) (i : Nat) :
    (i ∈ t.terms .sop ∨ i ∈ t.terms .pos) ↔ i < 2 ^ t.vars.size := by
  rw [← Variables.rowCount_eq, mem_terms, mem_terms]
  constructor
  · rintro (h | h)
    · exact lt_of_mem_terms (mem_terms.mpr h)
    · exact lt_of_mem_terms (mem_terms.mpr h)
  · intro hi
    have hlt : i < t.values.length := t.length_values ▸ hi
    rw [List.getElem?_eq_getElem hlt]
    cases t.values[i] with
    | true => exact .inl rfl
    | false => exact .inr rfl

theorem notMem_terms (h : i ∈ t.terms .sop) : i ∉ t.terms .pos := by
  rw [mem_terms] at h ⊢
  rw [h]
  decide

/-- **The canonical forms of a table.**  The minterms and the maxterms are increasing, and each
row is one or the other.  The disjunctive form is a constant when there is no minterm; otherwise
it is cut at its separator into the terms of the minterms, in their order, each of which is true on
its row only.  The conjunctive form is cut into the terms of the maxterms, each of which is false
on its row only.  Either form tells all values of the table. -/
theorem canonical_forms_spec {e : Expression} (h : ofExpressionOver vs e = .ok t)
    (hvs : ∀ c ∈ vs, c ∈ ['a', 'b', 'c', 'd', 'e']) :
    ((t.terms .sop).Pairwise (· < ·) ∧ (t.terms .pos).Pairwise (· < ·) ∧
      (∀ i ∈ t.terms .sop, i ∉ t.terms .pos) ∧
      ∀ i, (i ∈ t.terms .sop ∨ i ∈ t.terms .pos) ↔ i < 2 ^ vs.size) ∧
    ((t.terms .sop = [] → t.canonicalText .sop = "0") ∧
      (t.terms .sop ≠ [] → List.Forall₂ (IsRowTerm " ∧ " true vs) (t.terms .sop)
        (Text.pieces " ∨ " (t.canonicalText .sop)))) ∧
    ((t.terms .pos = [] → t.canonicalText .pos = "1") ∧
      (t.terms .pos ≠ [] → List.Forall₂ (IsRowTerm " ∨ " false vs) (t.terms .pos)
        (Text.pieces " ∧ " (t.canonicalText .pos)))) ∧
    ∀ u : TruthTable, u.vars = vs → ∀ form, u.canonicalText form = t.canonicalText form →
      u.values = t.values := by
  obtain ⟨-, rfl, -⟩ := ofExpressionOver_eq_ok_iff.mp h
  have hletters : ∀ c ∈ t.vars, Token.isVariable c = true := by
    intro c hc
    have hc := hvs c hc
    simp only [List.mem_cons, List.not_mem_nil, or_false] at hc
    rcases hc with rfl | rfl | rfl | rfl | rfl <;> decide
  exact ⟨⟨pairwise_terms t .sop, pairwise_terms t .pos, fun i => notMem_terms,
      mem_terms_or_mem_terms t⟩,
    ⟨canonicalText_of_terms_eq_nil, forall₂_isRowTerm hletters⟩,
    ⟨canonicalText_of_terms_eq_nil, forall₂_isRowTerm hletters⟩,
    fun u hu form => values_eq_of_canonicalText_eq hu hletters⟩

/-- The forms of `d & ! b` over `b` and `d`: row 1 is the only minterm, and there are three
maxterms. -/
theorem canonical_forms_of_and_not :
    ∃ e t, Expression.parse "d & ! b" = .ok e ∧ ofExpressionOver (.ofNames ['b', 'd']) e = .ok t ∧
      List.Forall₂ (IsRowTerm " ∧ " true (.ofNames ['b', 'd'])) [1]
        (Text.pieces " ∨ " "(¬b ∧ d)") ∧
      List.Forall₂ (IsRowTerm " ∨ " false (.ofNames ['b', 'd'])) [0, 2, 3]
        (Text.pieces " ∧ " "(b ∨ d) ∧ (¬b ∨ d) ∧ (¬b ∨ ¬d)") ∧
      ∀ u : TruthTable, u.vars = .ofNames ['b', 'd'] → u.canonicalText .sop = "(¬b ∧ d)" →
        u.values = [false, true, false, false] := by
  have he : Expression.parse "d & ! b"
      = .ok ⟨"d & ! b", .ofNames ['b', 'd'], [.var 'd', .var 'b', .op .not, .op .and]⟩ := by decide
  have ht : ofExpressionOver (.ofNames ['b', 'd'])
      ⟨"d & ! b", .ofNames ['b', 'd'], [.var 'd', .var 'b', .op .not, .op .and]⟩
        = .ok ⟨.ofNames ['b', 'd'], [false, true, false, false], by decide, by decide⟩ :=
    ofExpressionOver_eq_ok_iff.mpr ⟨by decide, rfl, rfl⟩
  have hsopText : canonicalText ⟨.ofNames ['b', 'd'], [false, true, false, false], by decide,
      by decide⟩ .sop = "(¬b ∧ d)" := by decide
  have hposText : canonicalText ⟨.ofNames ['b', 'd'], [false, true, false, false], by decide,
      by decide⟩ .pos = "(b ∨ d) ∧ (¬b ∨ d) ∧ (¬b ∨ ¬d)" := by decide
  have hnames : ∀ c ∈ (.ofNames ['b', 'd'] : Variables), c ∈ ['a', 'b', 'c', 'd', 'e'] := by simp
  obtain ⟨-, ⟨-, hsop⟩, ⟨-, hpos⟩, htable⟩ := canonical_forms_spec ht hnames
  rw [hsopText] at hsop
  rw [hposText] at hpos
  exact ⟨_, _, he, ht, hsop (by decide), hpos (by decide), fun u hu h =>
    htable u hu .sop (h.trans hsopText.symm)⟩

end TruthTable
end TwoLevel
