/-
# Texts of tokens are read back

A token keeps the word that it was read from, so tokens can be written out again, one word after
the other.  It does not matter which blanks stand between the words, nor how many, as long as no two
words touch: the same tokens are read.  An expression in postfix order has no token that was not
read, so its text is read back in the same way.

* `Text.words_layOut`: words with gaps between them are read back;
* `Token.ofText_layOut`: so are the tokens of a text;
* `Expression.ofText_postfixText`: so are the tokens of an expression in postfix order.
-/
import TwoLevel.Proofs.Conversion
import TwoLevel.Proofs.TableValues

namespace TwoLevel

/-! ## 1. Words and gaps -/

namespace Text

/-- A text that is read as one word: it has characters, and none of them is blank. -/
def IsWord (word : String) : Prop := word ≠ "" ∧ ∀ c ∈ word.toList, isBlank c = false

/-- A text of blanks, which may be empty. -/
def IsGap (gap : String) : Prop := ∀ c ∈ gap.toList, isBlank c = true

instance (gap : String) : Decidable (IsGap gap) :=
  decidable_of_iff (gap.toList.all isBlank = true) List.all_eq_true

/-- Words one after the other, each with the gap that follows it, behind a gap at the start. -/
def layOut (lead : String) (pieces : List (String × String)) : String :=
  lead ++ String.join (pieces.map fun (word, gap) => word ++ gap)

/-- Gaps such that no two words touch: each is of blanks, and only those at the two ends may be
empty. -/
structure KeepsApart (lead : String) (pieces : List (String × String)) : Prop where
  lead : IsGap lead
  gaps : ∀ p ∈ pieces, IsGap p.2
  between : ∀ p ∈ pieces.dropLast, p.2 ≠ ""

variable {s t gap lead word : String} {pieces : List (String × String)}

/-- The words of a text are words. -/
theorem isWord_of_mem_words (h : word ∈ words s) : IsWord word := by
  obtain ⟨cs, hcs, rfl⟩ := List.mem_map.mp h
  refine ⟨fun hempty => ne_nil_of_mem_split hcs ?_, ?_⟩
  · simpa using congrArg String.toList hempty
  · simpa using not_isBlank_of_mem_split hcs

theorem words_of_isWord (h : IsWord word) : words word = [word] := by
  obtain ⟨hne, hchars⟩ := h
  have hnil : word.toList.isEmpty = false := by
    rw [List.isEmpty_eq_false_iff]
    exact fun hnil => hne (String.toList_inj.mp hnil)
  simp [words, split, List.splitOnP_eq_singleton hchars, hnil]

/-- A gap that is not empty sets the words on its two sides apart.  By induction on its blanks,
the first of which does so already. -/
theorem words_append_gap (h : IsGap gap) (hne : gap ≠ "") :
    words (s ++ gap ++ t) = words s ++ words t := by
  have hchars : ∀ cs : List Char, cs ≠ [] → (∀ c ∈ cs, isBlank c = true) →
      ∀ xs ys, split (xs ++ cs ++ ys) = split xs ++ split ys := by
    intro cs
    induction cs with
    | nil => exact fun hnil => absurd rfl hnil
    | cons c cs ih =>
      intro _ hcs xs ys
      obtain ⟨hc, hrest⟩ := List.forall_mem_cons.mp hcs
      rw [List.append_assoc, List.cons_append, split_append_cons hc]
      cases cs with
      | nil => rfl
      | cons d cs => exact congrArg (split xs ++ ·) (ih (List.cons_ne_nil d cs) hrest [] ys)
  have hnil : gap.toList ≠ [] := fun hnil => hne (String.toList_inj.mp hnil)
  simp only [words, String.toList_append, hchars _ hnil h, List.map_append]

/-- A gap holds no word, so nothing changes where one is put in front. -/
theorem words_gap_append (h : IsGap gap) : words (gap ++ t) = words t := by
  by_cases hne : gap = ""
  · rw [hne, String.empty_append]
  · exact words_append_gap (s := "") h hne

theorem words_append_of_isGap (h : IsGap gap) : words (s ++ gap) = words s := by
  by_cases hne : gap = ""
  · rw [hne, String.append_empty]
  · have happend := words_append_gap (s := s) (t := "") h hne
    rwa [String.append_empty, show words "" = [] from rfl, List.append_nil] at happend

/-- **Words with gaps between them are read back.** -/
theorem words_layOut (h : KeepsApart lead pieces) (hwords : ∀ p ∈ pieces, IsWord p.1) :
    words (layOut lead pieces) = pieces.map Prod.fst := by
  obtain ⟨hlead, hgaps, hbetween⟩ := h
  rw [layOut, words_gap_append hlead]
  induction pieces with
  | nil => rfl
  | cons p pieces ih =>
    obtain ⟨hp, hrest⟩ := List.forall_mem_cons.mp hwords
    obtain ⟨hgap, hgaps⟩ := List.forall_mem_cons.mp hgaps
    rw [List.map_cons, String.join_cons, List.map_cons]
    cases pieces with
    | nil =>
      rw [List.map_nil, String.join_nil, String.append_empty, words_append_of_isGap hgap,
        words_of_isWord hp]
      rfl
    | cons q pieces =>
      obtain ⟨hne, hbetween⟩ := List.forall_mem_cons.mp hbetween
      rw [words_append_gap hgap hne, words_of_isWord hp, ih hrest hgaps hbetween]
      rfl

/-- Words set apart by single spaces are read back. -/
theorem words_intercalate {ws : List String} (h : ∀ w ∈ ws, IsWord w) :
    words (" ".intercalate ws) = ws := by
  have hspace : IsGap " " := by decide
  induction ws with
  | nil => rfl
  | cons w ws ih =>
    obtain ⟨hw, hws⟩ := List.forall_mem_cons.mp h
    cases ws with
    | nil => simpa using words_of_isWord hw
    | cons v ws =>
      rw [String.intercalate_cons_cons, words_append_gap hspace (by decide), words_of_isWord hw,
        ih hws]
      rfl

end Text

/-! ## 2. Tokens of a text -/

namespace Token

open Text (IsWord KeepsApart layOut)

variable {source : String} {t : Token}

/-- A token that was read is written as a word. -/
theorem isWord_text (h : t ∈ ofText source) : IsWord t.text := by
  have hmem : t.text ∈ (ofText source).map text := List.mem_map_of_mem h
  rw [map_text_ofText] at hmem
  exact Text.isWord_of_mem_words hmem

/-- A token that was read is what its word means. -/
theorem ofWord_text (h : t ∈ ofText source) : ofWord t.text = t := by
  obtain ⟨word, -, rfl⟩ := List.mem_map.mp h
  rw [text_ofWord]

/-- **The tokens of a text are read back**, whatever gaps stand between their words. -/
theorem ofText_layOut {lead : String} {pieces : List (String × String)}
    (h : KeepsApart lead pieces) (hpieces : pieces.map Prod.fst = (ofText source).map text) :
    ofText (layOut lead pieces) = ofText source := by
  rw [map_text_ofText] at hpieces
  have hwords : ∀ p ∈ pieces, IsWord p.1 := fun p hp =>
    Text.isWord_of_mem_words (hpieces ▸ List.mem_map_of_mem hp)
  rw [ofText, Text.words_layOut h hwords, hpieces]
  rfl

end Token

/-! ## 3. Expressions in postfix order -/

namespace Expression

variable {source : String} {e : Expression}

/-- The tokens of an expression are among those that were read. -/
theorem mem_ofText_of_mem_tokens (h : parse source = .ok e) {t : Token} (ht : t ∈ e.tokens) :
    t ∈ Token.ofText source := by
  obtain ⟨ordered, hordered, rfl⟩ := parse_eq_ok_iff.mp h
  have hmem := (Postfix.perm_of_convert hordered).mem_iff.mp ht
  exact (List.mem_filter.mp (by simpa [Postfix.waitingTokens] using hmem)).1

/-- **The tokens of an expression are read back from its text in postfix order.** -/
theorem ofText_postfixText (h : parse source = .ok e) :
    Token.ofText e.postfixText = e.tokens := by
  have hwords : ∀ w ∈ e.tokens.map Token.text, Text.IsWord w := by
    intro w hw
    obtain ⟨t, ht, rfl⟩ := List.mem_map.mp hw
    exact Token.isWord_text (mem_ofText_of_mem_tokens h ht)
  rw [Token.ofText, postfixText, Postfix.text, Text.words_intercalate hwords, List.map_map]
  refine (List.map_congr_left fun t ht => ?_).trans (List.map_id _)
  exact Token.ofWord_text (mem_ofText_of_mem_tokens h ht)

end Expression

namespace Token

open Text (KeepsApart layOut)

/-- **Texts of tokens are read back.**  No token that was read is written as an empty text or with a
blank.  Written one after the other, with any blanks at the ends and some between every two of them,
the tokens of a text are read again.  So are those of an expression in postfix order, set apart by
spaces, and what is read has the value of the expression under every assignment. -/
theorem texts_read_back (source : String) :
    (∀ t ∈ ofText source, t.text ≠ "" ∧ ∀ c ∈ t.text.toList, Text.isBlank c = false) ∧
    (∀ lead pieces, KeepsApart lead pieces → pieces.map Prod.fst = (ofText source).map text →
      ofText (layOut lead pieces) = ofText source) ∧
    (∀ e, Expression.parse source = .ok e →
      ofText e.postfixText = e.tokens ∧
        ∀ a, Postfix.evaluate a (ofText e.postfixText) = e.eval a) := by
  refine ⟨fun t ht => isWord_text ht, fun lead pieces h hpieces => ofText_layOut h hpieces,
    fun e he => ?_⟩
  have htokens := Expression.ofText_postfixText he
  exact ⟨htokens, fun a => by rw [htokens]; rfl⟩

/-- Four tokens, three of them without a meaning, read again between other blanks, and an expression
read again from its postfix order. -/
theorem texts_read_back_between_other_blanks :
    ofText "\u3000&&\t\n!a\u00a0- (" = [.unknown "&&", .unknown "!a", .unknown "-", .leftParen] ∧
      ofText "a b -> c ! ~"
        = [.var 'a', .var 'b', .op .implies, .var 'c', .op .not, .op .iff] := by
  have hgaps : KeepsApart "\u3000" [("&&", "\t\n"), ("!a", "\u00a0"), ("-", " "), ("(", "")] :=
    ⟨by decide, by decide, by decide⟩
  have hread := (texts_read_back " && !a -  ( ").2.1 _ _ hgaps (by decide)
  have he : Expression.parse "( a -> b ) ~ ! c" = .ok ⟨"( a -> b ) ~ ! c", .ofNames ['a', 'b', 'c'],
      [.var 'a', .var 'b', .op .implies, .var 'c', .op .not, .op .iff]⟩ := rfl
  have hpostfix := ((texts_read_back "( a -> b ) ~ ! c").2.2 _ he).1
  exact ⟨hread.trans (by decide), hpostfix⟩

end Token
end TwoLevel
