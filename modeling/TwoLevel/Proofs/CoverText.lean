/-
# What the text of a cover says

A cover may be made of any implicants, whatever rows their patterns have and whatever terms they
count for.  Its text still says which implicants were chosen: the universal pattern is written as
a constant, and with the two constants as names the text is a formula that has the target of the
form on the rows of the chosen patterns and nowhere else.

A text can only be missing because an implicant that was chosen has another width than there are
variables; the first of them is reported.

* `Denotes`: tokens that are read as a formula with a given value, where the two constants are
  names;
* `Literal.denotes_termText`: a term, which may be a constant;
* `Cover.exists_denotes_expressionOf`: chosen implicants as a text;
* `Cover.select_text_spec`: when a cover has a text, and what it says.
-/
import TwoLevel.Proofs.Coverage
import TwoLevel.Proofs.Rendering
import TwoLevel.Proofs.TableValues

namespace TwoLevel

/-! ## 1. Reading a text with constants -/

/-- The token, with the two constants as names. -/
def Token.nameConstant : Token → Token
  | .unknown word =>
    if word = "0" then .var '0' else if word = "1" then .var '1' else .unknown word
  | t => t

/-- The assignment with the values of the two constants. -/
def Assignment.withConstants (a : Assignment) : Assignment :=
  (a.set '0' false).set '1' true

/-- The value of a text under an assignment.  Blanks stand after the negation signs, and the words
`0` and `1` are constants. -/
def Assignment.evalText (a : Assignment) (text : String) : Except Error Bool :=
  match Postfix.ofInfix ((Token.ofSpaced text).map Token.nameConstant) with
  | .ok ordered => Postfix.evaluate a.withConstants ordered
  | .error fault => .error (.parse fault)

example : (Assignment.ofPairs [('a', false)]).evalText "!a & 1" = .ok true := by rfl

/-- The tokens of a tree hold no constants. -/
theorem Derivation.map_nameConstant_tokens {level : Nat} (d : Derivation level) :
    d.tokens.map Token.nameConstant = d.tokens := by
  induction d with
  | chain _ d ih => exact ih
  | iff l r ihl ihr | implies l r ihl ihr | or l r ihl ihr | and l r ihl ihr =>
    simp [tokens, Token.nameConstant, ihl, ihr]
  | var name _ => rfl
  | not d ih | paren d ih => simp [tokens, Token.nameConstant, ih]

/-- The tokens are read as a formula over some names and the two constants, and this has a given
value wherever the constants have theirs. -/
def Denotes (level : Nat) (names : List Char) (ts : List Token) (g : (Char → Bool) → Bool) :
    Prop :=
  ∃ (out : List Token) (pending : List Operator) (f : Formula),
    Derivation.Reads level ts out pending ∧ out ++ pending.map .op = f.postorder ∧
      (∀ c ∈ f.names, c = '0' ∨ c = '1' ∨ c ∈ names) ∧
      ∀ v : Char → Bool, v '0' = false → v '1' = true → f.value v = g v

namespace Denotes

variable {level : Nat} {names : List Char} {ts us : List Token} {g k : (Char → Bool) → Bool}

theorem of_yields (h : Yields level names ts g) :
    Denotes level names (ts.map Token.nameConstant) g := by
  obtain ⟨d, rfl, hnames, hvalue⟩ := h
  obtain ⟨out, pending, hreads, hout⟩ := d.exists_reads
  rw [d.map_nameConstant_tokens]
  refine ⟨out, pending, d.formula, hreads, hout.trans d.postorder_formula.symm, ?_, ?_⟩
  · intro c hc
    exact .inr (.inr (hnames c (Derivation.var_mem_tokens hc)))
  · intro v _ _
    rw [d.value_formula, hvalue]

/-- A constant is read as its value. -/
theorem constant (b : Bool) :
    Denotes 4 names ((Token.ofSpaced (if b then "1" else "0")).map Token.nameConstant)
      (fun _ => b) := by
  cases b with
  | true =>
    refine ⟨_, _, .var '1', .var '1', rfl, ?_, fun v _ h1 => h1⟩
    simp [Formula.names]
  | false =>
    refine ⟨_, _, .var '0', .var '0', rfl, ?_, fun v h0 _ => h0⟩
    simp [Formula.names]

theorem mono (h : Denotes level names ts g) {level' : Nat} (hle : level' ≤ level) :
    Denotes level' names ts g := by
  obtain ⟨out, pending, f, hreads, hout⟩ := h
  exact ⟨out, pending, f, hreads.mono hle, hout⟩

/-- An operator that groups to the left between two formulas. -/
theorem binary {o : Operator} (ho : o.leftAssociative = true)
    (h : Denotes o.precedence names ts g) (h' : Denotes (o.precedence + 1) names us k) :
    Denotes o.precedence names (ts ++ .op o :: us) (fun v => o.apply (g v) (k v)) := by
  obtain ⟨out, pending, f, hreads, hout, hnames, hvalue⟩ := h
  obtain ⟨out', pending', f', hreads', hout', hnames', hvalue'⟩ := h'
  have hunary : o.isUnary = false := by revert ho; cases o <;> decide
  have hl : Derivation.leftLevel o = o.precedence := if_pos ho
  have hr : Derivation.rightLevel o = o.precedence + 1 := if_pos ho
  refine ⟨_, _, .connect o hunary f f', .binary (hl ▸ hreads) (hr ▸ hreads'), ?_, ?_, ?_⟩
  · simp [Formula.postorder, ← hout, ← hout']
  · intro c hc
    rcases List.mem_append.mp hc with hc | hc
    · exact hnames c hc
    · exact hnames' c hc
  · intro v h0 h1
    rw [Formula.value, hvalue v h0 h1, hvalue' v h0 h1]

/-- An operator that groups to the left between some formulas. -/
theorem intercalate {o : Operator} (ho : o.leftAssociative = true) {unit : Bool}
    (hunit : ∀ b, o.apply unit b = b) {α : Type} {toks : α → List Token}
    {value : α → (Char → Bool) → Bool} {xs : List α} (hne : xs ≠ [])
    (hxs : ∀ x ∈ xs, Denotes (o.precedence + 1) names (toks x) (value x)) :
    Denotes o.precedence names ([.op o].intercalate (xs.map toks))
      (fun v => xs.foldl (fun b x => o.apply b (value x v)) unit) :=
  intercalate_of_binary (fun h k => h.binary ho k) (fun h => h.mono (Nat.le_succ _)) hunit hne hxs

/-- **The tokens have the value** under every assignment of the names. -/
theorem evaluate (h : Denotes level names ts g) {a : Assignment} {v : Char → Bool}
    (h0 : v '0' = false) (h1 : v '1' = true)
    (ha : ∀ c, c = '0' ∨ c = '1' ∨ c ∈ names → a.get? c = some (v c)) :
    ∃ out, Postfix.ofInfix ts = .ok out ∧ Postfix.evaluate a out = .ok (g v) := by
  obtain ⟨out, pending, f, hreads, hout, hnames, hvalue⟩ := h
  refine ⟨_, hreads.ofInfix, ?_⟩
  rw [hout, ← hvalue v h0 h1]
  exact Formula.evaluate_postorder fun c hc => ha c (hnames c hc)

/-- A text over some variables has the value for the row of their values. -/
theorem evalText_ofRow {vs : Variables} {text : String}
    (h : Denotes level vs.toList ((Token.ofSpaced text).map Token.nameConstant) g)
    (hvs : ∀ c ∈ vs, Token.isVariable c = true) (v : Char → Bool) :
    ∃ w : Char → Bool, vs.toList.map w = vs.toList.map v ∧
      (Assignment.ofRow vs (RowIndex.ofBits (vs.toList.map v))).evalText text = .ok (g w) := by
  let w : Char → Bool := fun c => if c = '1' then true else if c = '0' then false else v c
  have hw : ∀ c ∈ vs, c ≠ '1' ∧ c ≠ '0' := by
    intro c hc
    constructor
    · rintro rfl
      cases hvs _ hc
    · rintro rfl
      cases hvs _ hc
  have hmap : vs.toList.map w = vs.toList.map v := by
    refine List.map_congr_left fun c hc => ?_
    simp only [w, if_neg (hw c hc).1, if_neg (hw c hc).2]
  obtain ⟨out, hout, hvalue⟩ := h.evaluate (v := w)
    (a := (Assignment.ofRow vs (RowIndex.ofBits (vs.toList.map v))).withConstants) rfl rfl (by
      rintro c (rfl | rfl | hc)
      · simp [Assignment.withConstants, w]
      · simp [Assignment.withConstants, w]
      · simp [Assignment.withConstants, w, hw c hc, Assignment.get?_ofRow_ofBits hc])
  exact ⟨w, hmap, by rw [Assignment.evalText, hout]; exact hvalue⟩

end Denotes

/-! ## 2. The text of chosen implicants -/

theorem NormalForm.full_eq (form : NormalForm) :
    form.full = if form.target then "1" else "0" := by
  cases form <;> rfl

theorem NormalForm.empty_eq (form : NormalForm) :
    form.empty = if !form.target then "1" else "0" := by
  cases form <;> rfl

/-- **A term is a formula that the operator between terms can join**, also when it is the constant
of the universal pattern. -/
theorem Literal.denotes_termText {names : List Char} (form : NormalForm) {ls : List Literal}
    (hls : ∀ l ∈ ls, l.name ∈ names ∧ Token.isVariable l.name = true) :
    Denotes (form.termOperator.precedence + 1) names
      ((Token.ofSpaced (termText form ls)).map Token.nameConstant)
      (fun v => ls.foldl (fun b l => form.literalOperator.apply b (l.value v)) form.target) := by
  by_cases hne : ls = []
  · subst hne
    have hlevel : form.termOperator.precedence + 1 ≤ 4 := by cases form <;> decide
    have htext : termText form [] = if form.target then "1" else "0" := form.full_eq
    rw [htext]
    exact (Denotes.constant form.target).mono hlevel
  · exact .of_yields (yields_termText form hne hls)

/-- Tokens with a separator between them, each token changed. -/
theorem Token.map_intercalate (f : Token → Token) (sep : List Token) (xs : List (List Token)) :
    (sep.intercalate xs).map f = (sep.map f).intercalate (xs.map (List.map f)) := by
  induction xs with
  | nil => rfl
  | cons x xs ih =>
    cases xs with
    | nil => simp
    | cons y ys =>
      rw [List.intercalate_cons_cons, List.map_append, List.map_append, ih]
      exact (List.intercalate_cons_cons ..).symm

namespace Cover

variable {is : List Implicant} {terms : List Nat} {vs : Variables} {form : NormalForm}

/-- **Chosen implicants are written as a formula** over the variables and the constants, and its
value is the target on the rows of their patterns and nowhere else. -/
theorem exists_denotes_expressionOf (hw : ∀ i ∈ is, i.pattern.width = vs.size)
    (hvs : ∀ c ∈ vs, Token.isVariable c = true) :
    ∃ text g, expressionOf is vs form = .ok text ∧
      Denotes 0 vs.toList ((Token.ofSpaced text).map Token.nameConstant) g ∧
      ∀ v, g v = form.target ↔
        ∃ i ∈ is, Slot.fits i.pattern.slots (vs.toList.map v) = true := by
  by_cases hne : is = []
  · subst hne
    refine ⟨form.empty, fun _ => !form.target, rfl, ?_, fun v => by simp⟩
    rw [form.empty_eq]
    exact (Denotes.constant _).mono (Nat.zero_le 4)
  · have hterm : ∀ i ∈ is, Denotes (form.termOperator.precedence + 1) vs.toList
        ((Token.ofSpaced (Literal.termText form (i.pattern.literals vs form))).map
          Token.nameConstant) fun v =>
            (i.pattern.literals vs form).foldl
              (fun b l => form.literalOperator.apply b (l.value v)) form.target := by
      intro i _
      refine Literal.denotes_termText form fun l hl => ?_
      have hmem := Pattern.name_mem_of_mem_literals hl
      exact ⟨hmem, hvs _ hmem⟩
    have hdenotes := Denotes.intercalate (o := form.termOperator)
      form.dual.leftAssociative_literalOperator form.apply_termOperator_target hne hterm
    refine ⟨_, _, expressionOf_eq_ok hne hw, ?_, foldl_terms_eq_target_iff hw⟩
    have hop : [Token.op form.termOperator].map Token.nameConstant = [.op form.termOperator] := rfl
    simp only [ofSpaced_intercalate (termSeparator_eq form), Token.map_intercalate, hop,
      List.map_map, Function.comp_def]
    exact hdenotes.mono (Nat.zero_le _)

/-- **Chosen implicants have no text exactly when one of them has another width**, and the first
such is reported. -/
theorem expressionOf_eq_error_iff {error : Error} :
    expressionOf is vs form = .error error ↔
      ∃ before j after, is = before ++ j :: after ∧
        (∀ i ∈ before, i.pattern.width = vs.size) ∧ j.pattern.width ≠ vs.size ∧
        error = .variableMismatch j.pattern.width vs.size := by
  have herror : ∀ i : Implicant, i.render vs form = .error error ↔
      i.pattern.width ≠ vs.size ∧ error = .variableMismatch i.pattern.width vs.size := by
    intro i
    by_cases hw : i.pattern.width = vs.size
    · simp [Implicant.render, Pattern.render, hw]
    · simp [Implicant.render, Pattern.render, hw, Ne.symm hw, eq_comm]
  have hall : expressionOf is vs form = .error error ↔
      Implicant.renderAll is vs form = .error error := by
    cases is with
    | nil => simp [expressionOf, Implicant.renderAll, collect]
    | cons i is =>
      rw [expressionOf]
      · cases Implicant.renderAll (i :: is) vs form <;> simp [Except.map]
      · exact List.cons_ne_nil i is
  rw [hall, Implicant.renderAll, collect_eq_error_iff]
  simp only [Implicant.exists_render_iff, herror]
  constructor
  · rintro ⟨before, j, after, rfl, ⟨hne, herr⟩, hbefore⟩
    exact ⟨before, j, after, rfl, hbefore, hne, herr⟩
  · rintro ⟨before, j, after, rfl, hbefore, hne, herr⟩
    exact ⟨before, j, after, rfl, ⟨hne, herr⟩, hbefore⟩

theorem exists_expressionOf_error_iff :
    (∃ error, expressionOf is vs form = .error error) ↔
      ∃ j ∈ is, j.pattern.width ≠ vs.size := by
  simp only [expressionOf_eq_error_iff]
  constructor
  · rintro ⟨_, before, j, after, rfl, -, hj, -⟩
    exact ⟨j, List.mem_append_right before List.mem_cons_self, hj⟩
  · intro h
    obtain ⟨before, j, after, hsplit, hj, hbefore⟩ :=
      exists_first (p := fun j : Implicant => j.pattern.width ≠ vs.size) h
    exact ⟨_, before, j, after, hsplit, fun i hi => Classical.not_not.mp (hbefore i hi), hj, rfl⟩

/-! ## 3. Covers -/

/-- A cover of demanded terms fails as its text does. -/
theorem select_eq_error_iff {targets : TermSet} (hd : Demand.ofTerms terms vs = .some targets)
    {error : Error} : select is terms vs form = .error error ↔
      expressionOf (Selection.choose is targets).selected vs form = .error error := by
  simp only [select, hd, ofDemand]
  cases expressionOf (Selection.choose is targets).selected vs form <;> simp [Except.map]

/-- **The text of a cover says which implicants were chosen.**  The implicants are any, and the
terms any that are neither none nor all rows.  There is no text exactly when a chosen implicant
has another width than there are variables, and the first of them is reported.  Otherwise the
text has, for each row, the target of the form exactly when a chosen pattern covers the row. -/
theorem select_text_spec (hvs : ∀ c ∈ vs, Token.isVariable c = true) (hne : terms ≠ [])
    (hrows : ¬ ∀ t, t ∈ terms ↔ t < vs.rowCount) :
    ((∃ error, select is terms vs form = .error error) ↔
      ∃ j ∈ (Selection.choose is (.ofList terms)).selected, j.pattern.width ≠ vs.size) ∧
    (∀ error, select is terms vs form = .error error ↔
      ∃ before j after, (Selection.choose is (.ofList terms)).selected = before ++ j :: after ∧
        (∀ i ∈ before, i.pattern.width = vs.size) ∧ j.pattern.width ≠ vs.size ∧
        error = .variableMismatch j.pattern.width vs.size) ∧
    ∀ c, select is terms vs form = .ok c →
      c.selected = (Selection.choose is (.ofList terms)).selected ∧
      ∀ i < 2 ^ vs.size, ∃ b, (Assignment.ofRow vs i).evalText c.expression = .ok b ∧
        (b = form.target ↔ ∃ j ∈ c.selected, j.pattern.covers i = true) := by
  have hd := Demand.ofTerms_eq_some hne hrows
  refine ⟨?_, fun error => (select_eq_error_iff hd).trans expressionOf_eq_error_iff, ?_⟩
  · rw [← exists_expressionOf_error_iff]
    exact exists_congr fun error => select_eq_error_iff hd
  · intro c hc
    obtain ⟨htext, hselected, -⟩ := of_select_some hd hc
    rw [← hselected] at htext
    have hw : ∀ j ∈ c.selected, j.pattern.width = vs.size := by
      intro j hj
      refine Classical.byContradiction fun hne => ?_
      obtain ⟨error, herror⟩ := exists_expressionOf_error_iff.mpr ⟨j, hj, hne⟩
      cases htext.symm.trans herror
    obtain ⟨text, g, hg, hdenotes, htarget⟩ :=
      @exists_denotes_expressionOf c.selected vs form hw hvs
    obtain rfl : text = c.expression := Except.ok.inj (hg.symm.trans htext)
    refine ⟨hselected, fun i hi => ?_⟩
    obtain ⟨v, rfl⟩ := TruthTable.exists_row vs (vs.rowCount_eq ▸ hi)
    obtain ⟨w, hmap, hvalue⟩ := hdenotes.evalText_ofRow hvs v
    refine ⟨g w, hvalue, (htarget w).trans ?_⟩
    have hcovers : ∀ j ∈ c.selected, (Slot.fits j.pattern.slots (vs.toList.map w) = true ↔
        j.pattern.covers (RowIndex.ofBits (vs.toList.map v)) = true) := by
      intro j hj
      have hlen : (vs.toList.map v).length = j.pattern.width := by
        rw [List.length_map, hw j hj, Ascending.size]
      rw [hmap, Pattern.covers_ofBits hlen]
    exact exists_congr fun j => and_congr_right (hcovers j)

/-- Implicants of widths 2 and 3, one of them universal.  The one of width 3 is reported only where
it is chosen. -/
theorem select_text_spec_of_two_widths :
    let is : List Implicant :=
      [⟨⟨[.free, .free], by decide⟩, .ofList [9], false⟩,
        ⟨⟨[.free, .fixed true], by decide⟩, .ofList [1], false⟩,
        ⟨⟨[.fixed true, .free, .free], by decide⟩, .ofList [2], false⟩]
    let vs : Variables := .ofNames ['a', 'b']
    (∃ c, select is [9, 1] vs .sop = .ok c ∧ c.expression = "b | 1" ∧
      (Assignment.ofRow vs 0).evalText "b | 1" = .ok true) ∧
    select is [9, 1, 2] vs .sop = .error (.variableMismatch 3 2) := by
  intro is vs
  have hvs : ∀ c ∈ vs, Token.isVariable c = true := by
    intro c hc
    have hc : c = 'a' ∨ c = 'b' := by simpa using Variables.mem_ofNames.mp hc
    rcases hc with rfl | rfl <;> decide
  have hfew : ∀ terms : List Nat, 9 ∈ terms → ¬ ∀ t, t ∈ terms ↔ t < vs.rowCount := by
    intro terms hmem hall
    exact absurd ((hall 9).mp hmem) (by decide)
  constructor
  · obtain ⟨-, -, hspec⟩ := @select_text_spec is [9, 1] vs .sop hvs
      (List.cons_ne_nil 9 [1]) (hfew [9, 1] (by decide))
    have htext : (select is [9, 1] vs .sop).map Cover.expression = .ok "b | 1" := by rfl
    cases h : select is [9, 1] vs .sop with
    | error e => simp [h, Except.map] at htext
    | ok c =>
      have hexpression : c.expression = "b | 1" := by simpa [h, Except.map] using htext
      obtain ⟨hselected, hrows⟩ := hspec c h
      obtain ⟨b, hb, htarget⟩ := hrows 0 (by decide)
      obtain rfl : b = true := by
        refine htarget.mpr ?_
        rw [hselected]
        decide
      exact ⟨c, rfl, hexpression, hexpression ▸ hb⟩
  · obtain ⟨-, herror, -⟩ := @select_text_spec is [9, 1, 2] vs .sop hvs
      (List.cons_ne_nil 9 [1, 2]) (hfew [9, 1, 2] (by decide))
    exact (herror _).mpr ⟨[_], _, [_], rfl, by decide, by decide, rfl⟩

end Cover
end TwoLevel
