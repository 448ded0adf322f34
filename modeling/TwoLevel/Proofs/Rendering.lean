/-
# Minimal forms are expressions

A minimal form is written with the symbols of expressions, except that a negation sign stands
next to its variable.  With a blank after each sign it is an expression, and its tree shows what
it denotes: a term has the target value of the form on the rows of its pattern, and the form has
it on the rows of some term.

* `Literal.yields_termText`: a term is a tree that the operator between terms can join;
* `Cover.exists_yields_expressionOf`: chosen implicants are written as a tree whose value is the
  target on the rows of their patterns and nowhere else.
-/
import TwoLevel.Cover
import TwoLevel.Proofs.Cube
import TwoLevel.Proofs.Grammar

namespace TwoLevel

/-! ## 1. Reading a text with blanks after the negation signs -/

namespace Text

/-- The text with a blank after each negation sign. -/
def spaced (text : String) : String :=
  String.ofList (text.toList.flatMap fun c => if c = '!' then [c, ' '] else [c])

end Text

namespace Token

/-- The tokens of a text with blanks after its negation signs. -/
def ofSpaced (text : String) : List Token :=
  ofText (Text.spaced text)

theorem ofText_append_blank (s t : String) : ofText (s ++ " " ++ t) = ofText s ++ ofText t := by
  have hblank : Text.isBlank ' ' = true := by decide
  have hchars : (s ++ " " ++ t).toList = s.toList ++ ' ' :: t.toList := by simp
  simp only [ofText, Text.words, hchars, Text.split_append_cons hblank, List.map_append]

theorem ofSpaced_append_blank (s t : String) :
    ofSpaced (s ++ " " ++ t) = ofSpaced s ++ ofSpaced t := by
  have hspaced : Text.spaced (s ++ " " ++ t) = Text.spaced s ++ " " ++ Text.spaced t := by
    refine String.toList_inj.mp ?_
    simp [Text.spaced]
  rw [ofSpaced, hspaced, ofText_append_blank]
  rfl

/-- The names of variables are five letters. -/
theorem mem_of_isVariable {c : Char} (h : isVariable c = true) :
    c ∈ ['a', 'b', 'c', 'd', 'e'] := by
  simp only [isVariable, Bool.and_eq_true, decide_eq_true_eq, Char.le_def, UInt32.le_iff_toNat_le]
    at h
  have hn : c.toNat = 97 ∨ c.toNat = 98 ∨ c.toNat = 99 ∨ c.toNat = 100 ∨ c.toNat = 101 := by
    have h1 : 97 ≤ c.toNat := h.1
    have h2 : c.toNat ≤ 101 := h.2
    omega
  rw [← Char.ofNat_toNat c]
  rcases hn with hn | hn | hn | hn | hn <;> rw [hn] <;> decide

end Token

/-! ## 2. Trees over some names -/

section Joined

/-! What can be joined by an operator can be joined by it any number of times.  `R` is a relation
between tokens and their value that the operator keeps, with operands in `S` on its right. -/

variable {α : Type} {o : Operator} {R S : List Token → ((Char → Bool) → Bool) → Prop}
  {toks : α → List Token} {value : α → (Char → Bool) → Bool}

theorem foldl_of_binary
    (hbinary : ∀ {ts us f g}, R ts f → S us g →
      R (ts ++ .op o :: us) fun v => o.apply (f v) (g v))
    {ts : List Token} {f : (Char → Bool) → Bool} (h : R ts f) {xs : List α}
    (hxs : ∀ x ∈ xs, S (toks x) (value x)) :
    R (ts ++ xs.flatMap fun x => .op o :: toks x)
      (fun v => xs.foldl (fun b x => o.apply b (value x v)) (f v)) := by
  induction xs generalizing ts f with
  | nil => simpa using h
  | cons x xs ih =>
    have hx := hbinary h (hxs x (by simp))
    have hrest := ih hx fun y hy => hxs y (by simp [hy])
    rwa [List.flatMap_cons, ← List.append_assoc]

theorem intercalate_of_binary
    (hbinary : ∀ {ts us f g}, R ts f → S us g →
      R (ts ++ .op o :: us) fun v => o.apply (f v) (g v))
    (hfirst : ∀ {ts f}, S ts f → R ts f) {unit : Bool} (hunit : ∀ b, o.apply unit b = b)
    {xs : List α} (hne : xs ≠ []) (hxs : ∀ x ∈ xs, S (toks x) (value x)) :
    R ([.op o].intercalate (xs.map toks))
      (fun v => xs.foldl (fun b x => o.apply b (value x v)) unit) := by
  cases xs with
  | nil => exact absurd rfl hne
  | cons x xs =>
    have hx := hfirst (hxs x (by simp))
    have hall := foldl_of_binary hbinary hx fun y hy => hxs y (List.mem_cons_of_mem x hy)
    have htoks : ∀ (x : α) (xs : List α), [Token.op o].intercalate ((x :: xs).map toks)
        = toks x ++ xs.flatMap fun x => .op o :: toks x := by
      intro x xs
      induction xs generalizing x with
      | nil => simp
      | cons y ys ih => simpa [List.intercalate_cons_cons] using ih y
    simpa only [htoks, List.foldl_cons, hunit] using hall

end Joined

/-- The tokens are those of a tree of a level, over some names and with a given value. -/
def Yields (level : Nat) (names : List Char) (ts : List Token) (f : (Char → Bool) → Bool) : Prop :=
  ∃ d : Derivation level, d.tokens = ts ∧ (∀ c, Token.var c ∈ ts → c ∈ names) ∧
    ∀ v, d.value v = f v

namespace Yields

variable {level : Nat} {names : List Char} {ts us : List Token} {f g : (Char → Bool) → Bool}

theorem var {c : Char} (hc : c ∈ names) (h : Token.isVariable c = true) :
    Yields 4 names [.var c] (· c) := by
  refine ⟨.var c h, rfl, fun d hd => ?_, fun _ => rfl⟩
  obtain rfl : d = c := by simpa using hd
  exact hc

theorem not (h : Yields 4 names ts f) : Yields 4 names (.op .not :: ts) (fun v => !f v) := by
  obtain ⟨d, rfl, hn, hv⟩ := h
  exact ⟨.not d, rfl, by simpa using hn, fun v => congrArg (!·) (hv v)⟩

theorem paren (h : Yields 0 names ts f) :
    Yields 4 names (.leftParen :: (ts ++ [.rightParen])) f := by
  obtain ⟨d, rfl, hn, hv⟩ := h
  exact ⟨.paren d, rfl, by simpa using hn, hv⟩

/-- A tree of a level is one of every looser level. -/
theorem mono (h : Yields level names ts f) (hlevel : level ≤ 4) {level' : Nat}
    (hle : level' ≤ level) : Yields level' names ts f := by
  obtain ⟨n, rfl⟩ := Nat.exists_eq_add_of_le hle
  induction n with
  | zero => exact h
  | succ n ih =>
    obtain ⟨d, ht, hn, hv⟩ := h
    have hlt : level' + n < 4 := hlevel
    exact ih ⟨.chain hlt d, ht, hn, hv⟩ (Nat.le_of_lt hlt) (Nat.le_add_right _ _)

/-- An operator that groups to the left between two trees. -/
theorem binary {o : Operator} (ho : o.leftAssociative = true)
    (h : Yields o.precedence names ts f) (k : Yields (o.precedence + 1) names us g) :
    Yields o.precedence names (ts ++ .op o :: us) (fun v => o.apply (f v) (g v)) := by
  obtain ⟨d, rfl, hn, hv⟩ := h
  obtain ⟨e, rfl, hm, hw⟩ := k
  have hnames : ∀ c, Token.var c ∈ d.tokens ++ .op o :: e.tokens → c ∈ names := by
    intro c hc
    rcases List.mem_append.mp hc with hc | hc
    · exact hn c hc
    · exact hm c (by simpa using hc)
  cases o with
  | and =>
    have hvalue : ∀ v, (Derivation.and d e).value v = (f v && g v) :=
      fun v => by rw [← hv v, ← hw v]; rfl
    exact ⟨.and d e, rfl, hnames, hvalue⟩
  | or =>
    have hvalue : ∀ v, (Derivation.or d e).value v = (f v || g v) :=
      fun v => by rw [← hv v, ← hw v]; rfl
    exact ⟨.or d e, rfl, hnames, hvalue⟩
  | not | implies | iff => cases ho

/-- **An operator that groups to the left between some trees.**  `unit` is a value that it
ignores on its left. -/
theorem intercalate {o : Operator} (ho : o.leftAssociative = true) {unit : Bool}
    (hunit : ∀ b, o.apply unit b = b) {α : Type} {toks : α → List Token}
    {value : α → (Char → Bool) → Bool} {xs : List α} (hne : xs ≠ [])
    (hxs : ∀ x ∈ xs, Yields (o.precedence + 1) names (toks x) (value x)) :
    Yields o.precedence names ([.op o].intercalate (xs.map toks))
      (fun v => xs.foldl (fun b x => o.apply b (value x v)) unit) := by
  have hlevel : o.precedence + 1 ≤ 4 := by revert ho; cases o <;> decide
  exact intercalate_of_binary (fun h k => h.binary ho k) (fun h => h.mono hlevel (Nat.le_succ _))
    hunit hne hxs

end Yields

/-! ## 3. The operators of a form -/

namespace NormalForm

/-- The operator between the literals of a term. -/
def literalOperator : NormalForm → Operator
  | .sop => .and
  | .pos => .or

/-- The operator between terms. -/
def termOperator (form : NormalForm) : Operator := form.dual.literalOperator

theorem leftAssociative_literalOperator (form : NormalForm) :
    form.literalOperator.leftAssociative = true := by
  cases form <;> rfl

/-- Literals together have the target value when each of them does. -/
theorem foldl_literalOperator {α : Type} (form : NormalForm) (f : α → Bool) (xs : List α) :
    xs.foldl (fun b x => form.literalOperator.apply b (f x)) form.target = form.target ↔
      ∀ x ∈ xs, f x = form.target := by
  have hstep : ∀ (b : Bool), xs.foldl (fun b x => form.literalOperator.apply b (f x)) b
      = form.target ↔ b = form.target ∧ ∀ x ∈ xs, f x = form.target := by
    induction xs with
    | nil => simp
    | cons x xs ih =>
      intro b
      rw [List.foldl_cons, ih]
      cases form <;> cases b <;> simp [literalOperator, target, Operator.apply]
  simp [hstep]

/-- Terms together have the target value when one of them does. -/
theorem foldl_termOperator {α : Type} (form : NormalForm) (f : α → Bool) (xs : List α) :
    xs.foldl (fun b x => form.termOperator.apply b (f x)) (!form.target) = form.target ↔
      ∃ x ∈ xs, f x = form.target := by
  have h := foldl_literalOperator form.dual f xs
  rw [target_dual] at h
  have hor : ∀ b : Bool, b = form.target ↔ ¬ b = !form.target := by
    intro b
    cases b <;> cases form.target <;> decide
  rw [termOperator, hor, h]
  simp

theorem apply_literalOperator_target (form : NormalForm) (b : Bool) :
    form.literalOperator.apply form.target b = b := by
  cases form <;> cases b <;> rfl

theorem apply_termOperator_target (form : NormalForm) (b : Bool) :
    form.termOperator.apply (!form.target) b = b := by
  rw [← target_dual]
  exact form.dual.apply_literalOperator_target b

end NormalForm

/-- Where a separator is read as an operator, joined texts are read as joined tokens. -/
theorem ofSpaced_intercalate {sep : String} {o : Operator}
    (hsep : sep = " " ++ o.symbol ++ " ") (texts : List String) :
    Token.ofSpaced (sep.intercalate texts)
      = [Token.op o].intercalate (texts.map Token.ofSpaced) := by
  have hop : Token.ofSpaced o.symbol = [.op o] := by cases o <;> decide
  have hnone : Token.ofSpaced "" = [] := by decide
  induction texts with
  | nil => simpa using hnone
  | cons s texts ih =>
    cases texts with
    | nil => simp
    | cons t texts =>
      have hblanks : s ++ sep ++ sep.intercalate (t :: texts)
          = s ++ " " ++ (o.symbol ++ " " ++ sep.intercalate (t :: texts)) := by
        rw [hsep]
        simp only [String.append_assoc]
      rw [String.intercalate_cons_cons, hblanks, Token.ofSpaced_append_blank,
        Token.ofSpaced_append_blank, hop, ih]
      simp [List.intercalate_cons_cons]

/-- Parentheses around a text are read as parentheses around its tokens. -/
theorem ofSpaced_parens (text : String) :
    Token.ofSpaced ("( " ++ text ++ " )")
      = .leftParen :: (Token.ofSpaced text ++ [.rightParen]) := by
  have hopen : Token.ofSpaced "(" = [.leftParen] := by decide
  have hclose : Token.ofSpaced ")" = [.rightParen] := by decide
  have hblanks : "( " ++ text ++ " )" = "(" ++ " " ++ (text ++ " " ++ ")") := by
    have h1 : "( " = "(" ++ " " := by decide
    have h2 : " )" = " " ++ ")" := by decide
    simp only [h1, h2, String.append_assoc]
  rw [hblanks, Token.ofSpaced_append_blank, Token.ofSpaced_append_blank, hopen, hclose,
    List.singleton_append]

theorem literalSeparator_eq (form : NormalForm) :
    form.literalSeparator .plain = " " ++ form.literalOperator.symbol ++ " " := by
  cases form <;> rfl

theorem termSeparator_eq (form : NormalForm) :
    form.termSeparator .plain = " " ++ form.termOperator.symbol ++ " " := by
  cases form <;> rfl

/-! ## 4. Terms -/

namespace Literal

/-- The value of a literal for values of the variables. -/
def value (l : Literal) (v : Char → Bool) : Bool := v l.name != l.negated

/-- The literal for a value of a variable has the target of the form where the variable has
this value. -/
theorem value_ofValue {form : NormalForm} {name : Char} {b : Bool} {v : Char → Bool} :
    (ofValue form name b).value v = form.target ↔ b = v name := by
  simp only [value, ofValue]
  cases form <;> cases b <;> cases v name <;> decide

variable {names : List Char}

theorem yields_text {l : Literal} (hl : l.name ∈ names) (h : Token.isVariable l.name = true) :
    Yields 4 names (Token.ofSpaced (l.text .plain)) l.value := by
  have hvar := Yields.var hl h
  have hname : Token.ofSpaced l.name.toString = [.var l.name] ∧
      Token.ofSpaced ("!" ++ l.name.toString) = [.op .not, .var l.name] := by
    have hmem := Token.mem_of_isVariable h
    simp only [List.mem_cons, List.not_mem_nil, or_false] at hmem
    rcases hmem with e | e | e | e | e <;> rw [e] <;> decide
  cases hn : l.negated with
  | false =>
    have hvalue : l.value = (· l.name) := by funext v; simp [value, hn]
    simpa only [text, hn, hname.1, hvalue, Bool.false_eq_true, if_false] using hvar
  | true =>
    have hvalue : l.value = fun v => !v l.name := by funext v; simp [value, hn]
    simpa only [text, hn, Style.plain, hname.2, hvalue, if_true] using hvar.not

/-- Literals with the separator of a form between them. -/
theorem yields_joined (form : NormalForm) {ls : List Literal} (hne : ls ≠ [])
    (hls : ∀ l ∈ ls, l.name ∈ names ∧ Token.isVariable l.name = true) :
    Yields form.literalOperator.precedence names (Token.ofSpaced (joined .plain form ls))
      (fun v => ls.foldl (fun b l => form.literalOperator.apply b (l.value v)) form.target) := by
  have hlevel : form.literalOperator.precedence + 1 ≤ 4 := by cases form <;> decide
  have hread : Token.ofSpaced (joined .plain form ls)
      = [.op form.literalOperator].intercalate
        (ls.map fun l => Token.ofSpaced (l.text .plain)) := by
    simp only [joined, ofSpaced_intercalate (literalSeparator_eq form), List.map_map,
      Function.comp_def]
  rw [hread]
  refine Yields.intercalate form.leftAssociative_literalOperator
    form.apply_literalOperator_target hne fun l hl => ?_
  exact (yields_text (hls l hl).1 (hls l hl).2).mono (Nat.le_refl _) hlevel

/-- **A term is a tree that the operator between terms can join**, and it has the target value
where all its literals do. -/
theorem yields_termText (form : NormalForm) {ls : List Literal} (hne : ls ≠ [])
    (hls : ∀ l ∈ ls, l.name ∈ names ∧ Token.isVariable l.name = true) :
    Yields (form.termOperator.precedence + 1) names (Token.ofSpaced (termText form ls))
      (fun v => ls.foldl (fun b l => form.literalOperator.apply b (l.value v)) form.target) := by
  have hjoined := yields_joined form hne hls
  match ls, form with
  | [], _ => exact absurd rfl hne
  | [l], form =>
    have htext : joined .plain form [l] = termText form [l] := by
      simp [joined, termText]
    have hl := hls l (by simp)
    have hvalue : (fun v => [l].foldl (fun b l => form.literalOperator.apply b (l.value v))
        form.target) = l.value := by
      funext v
      simp [form.apply_literalOperator_target]
    rw [hvalue]
    have hlevel : form.termOperator.precedence + 1 ≤ 4 := by cases form <;> decide
    exact (yields_text hl.1 hl.2).mono (Nat.le_refl _) hlevel
  | l :: m :: ls, .sop => exact hjoined
  | l :: m :: ls, .pos =>
    have hparen := (hjoined.mono (by decide) (Nat.zero_le _)).paren
    have hread : Token.ofSpaced (termText .pos (l :: m :: ls))
        = .leftParen :: (Token.ofSpaced (joined .plain .pos (l :: m :: ls)) ++ [.rightParen]) :=
      ofSpaced_parens _
    rw [hread]
    exact hparen

end Literal

/-! ## 5. Patterns and covers -/

namespace Pattern

variable {p : Pattern} {vs : Variables} {form : NormalForm}

theorem name_mem_of_mem_literals {l : Literal} (h : l ∈ p.literals vs form) : l.name ∈ vs := by
  obtain ⟨⟨s, name⟩, hmem, hl⟩ := List.mem_filterMap.mp h
  cases s with
  | fixed b =>
    cases hl
    exact (List.of_mem_zip hmem).2
  | free => cases hl

/-- The literals are made position by position: a fixed one gives the literal for its value, a
free one gives none. -/
theorem exists_literals_eq (form : NormalForm) :
    ∃ literal? : Slot × Char → Option Literal,
      (∀ (p : Pattern) (vs : Variables),
        p.literals vs form = (p.slots.zip vs.toList).filterMap literal?) ∧
      (∀ b c, literal? (.fixed b, c) = some (.ofValue form c b)) ∧
      ∀ c, literal? (.free, c) = none :=
  ⟨_, fun _ _ => rfl, fun _ _ => rfl, fun _ => rfl⟩

/-- The literals have the target value on the rows of the pattern, and nowhere else. -/
theorem value_literals (hw : p.width = vs.size) (v : Char → Bool) :
    (∀ l ∈ p.literals vs form, l.value v = form.target) ↔
      Slot.fits p.slots (vs.toList.map v) = true := by
  obtain ⟨literal?, hliterals, hfixed, hfree⟩ := exists_literals_eq form
  have hlists : ∀ (ss : List Slot) (names : List Char), ss.length = names.length →
      ((∀ l ∈ (ss.zip names).filterMap literal?, l.value v = form.target) ↔
        Slot.fits ss (names.map v) = true) := by
    intro ss
    induction ss with
    | nil =>
      intro names hlen
      rw [List.eq_nil_of_length_eq_zero hlen.symm]
      simp [Slot.fits]
    | cons s ss ih =>
      intro names hlen
      cases names with
      | nil => cases hlen
      | cons name names =>
        have hrest := ih names (by simpa using hlen)
        cases s with
        | fixed b =>
          simp only [List.zip_cons_cons, List.filterMap_cons, hfixed, List.forall_mem_cons, hrest,
            List.map_cons, Slot.fits_cons, Literal.value_ofValue, Slot.admits, decide_eq_true_eq]
        | free =>
          simp only [List.zip_cons_cons, List.filterMap_cons, hfree, hrest, List.map_cons,
            Slot.fits_cons, Slot.admits, true_and]
  rw [hliterals]
  exact hlists p.slots vs.toList hw

/-- Only the universal pattern has no literals. -/
theorem literals_ne_nil (hw : p.width = vs.size) (hu : p.isUniversal = false) :
    p.literals vs form ≠ [] := by
  obtain ⟨s, hs, hfixed⟩ := List.all_eq_false.mp hu
  obtain ⟨b, rfl⟩ : ∃ b, s = .fixed b := by
    cases s with
    | fixed b => exact ⟨b, rfl⟩
    | free => simp at hfixed
  obtain ⟨place, hplace⟩ := List.mem_iff_getElem?.mp hs
  have hlt : place < vs.toList.length :=
    Nat.lt_of_lt_of_eq (List.getElem?_eq_some_iff.mp hplace).1 hw
  refine List.ne_nil_of_mem (List.mem_filterMap.mpr
    ⟨(.fixed b, vs.toList[place]), List.mem_iff_getElem?.mpr ⟨place, ?_⟩, rfl⟩)
  simp [List.getElem?_zip_eq_some, hplace, hlt]

end Pattern

/-- An implicant is written as a term exactly when it has the width of the variables. -/
theorem Implicant.exists_render_iff {i : Implicant} {vs : Variables} {form : NormalForm} :
    (∃ text, i.render vs form = .ok text) ↔ i.pattern.width = vs.size := by
  by_cases hw : i.pattern.width = vs.size
  · simp [render, Pattern.render, hw]
  · simp [render, Pattern.render, hw, Ne.symm hw]

namespace Cover

variable {vs : Variables} {form : NormalForm} {is : List Implicant}

/-- Chosen implicants of the width of the variables are written, each as its term. -/
theorem expressionOf_eq_ok (hne : is ≠ []) (hw : ∀ i ∈ is, i.pattern.width = vs.size) :
    expressionOf is vs form
      = .ok ((form.termSeparator .plain).intercalate
          (is.map fun i => Literal.termText form (i.pattern.literals vs form))) := by
  have htexts : Implicant.renderAll is vs form
      = .ok (is.map fun i => Literal.termText form (i.pattern.literals vs form)) := by
    refine collect_eq_ok_iff.mpr ?_
    rw [List.map_map]
    refine List.map_congr_left fun i hi => ?_
    simp [Implicant.render, Pattern.render, hw i hi]
  rw [expressionOf, htexts]
  · rfl
  · exact hne

/-- The terms of chosen implicants together have the target value on the rows of their patterns
and nowhere else. -/
theorem foldl_terms_eq_target_iff (hw : ∀ i ∈ is, i.pattern.width = vs.size) (v : Char → Bool) :
    is.foldl (fun b i => form.termOperator.apply b ((i.pattern.literals vs form).foldl
        (fun b l => form.literalOperator.apply b (l.value v)) form.target)) (!form.target)
      = form.target ↔ ∃ i ∈ is, Slot.fits i.pattern.slots (vs.toList.map v) = true := by
  rw [NormalForm.foldl_termOperator]
  simp only [NormalForm.foldl_literalOperator]
  constructor
  · rintro ⟨i, hi, h⟩
    exact ⟨i, hi, (Pattern.value_literals (hw i hi) v).mp h⟩
  · rintro ⟨i, hi, h⟩
    exact ⟨i, hi, (Pattern.value_literals (hw i hi) v).mpr h⟩

/-- **Chosen implicants are written as a tree** over the variables, and its value is the target
on the rows of their patterns and nowhere else. -/
theorem exists_yields_expressionOf (hne : is ≠ []) (hw : ∀ i ∈ is, i.pattern.width = vs.size)
    (hu : ∀ i ∈ is, i.pattern.isUniversal = false)
    (hvs : ∀ c ∈ vs, Token.isVariable c = true) :
    ∃ text f, expressionOf is vs form = .ok text ∧
      Yields form.termOperator.precedence vs.toList (Token.ofSpaced text) f ∧
      ∀ v, f v = form.target ↔
        ∃ i ∈ is, Slot.fits i.pattern.slots (vs.toList.map v) = true := by
  have hterm : ∀ i ∈ is, Yields (form.termOperator.precedence + 1) vs.toList
      (Token.ofSpaced (Literal.termText form (i.pattern.literals vs form))) fun v =>
        (i.pattern.literals vs form).foldl
          (fun b l => form.literalOperator.apply b (l.value v)) form.target := by
    intro i hi
    refine Literal.yields_termText form (Pattern.literals_ne_nil (hw i hi) (hu i hi)) ?_
    intro l hl
    have hmem := Pattern.name_mem_of_mem_literals hl
    exact ⟨hmem, hvs _ hmem⟩
  have hyields := Yields.intercalate (o := form.termOperator)
    form.dual.leftAssociative_literalOperator form.apply_termOperator_target hne hterm
  refine ⟨_, _, expressionOf_eq_ok hne hw, ?_, foldl_terms_eq_target_iff hw⟩
  simpa only [ofSpaced_intercalate (termSeparator_eq form), List.map_map, Function.comp_def]
    using hyields

end Cover
end TwoLevel
