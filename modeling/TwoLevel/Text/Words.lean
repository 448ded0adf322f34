/-
# Blanks and words

An expression is a line of words set apart by blanks.  A blank is any character of the Unicode
property `White_Space`; a word is a maximal run of characters that are not blank.

The facts beside the definitions:

* `isBlank_of_isWhitespace`: every blank of ASCII is a blank here;
* `ne_nil_of_mem_split`, `not_isBlank_of_mem_split`: a word is not empty and holds no blank;
* `flatten_split`: the words hold every character that is not blank, in order;
* `split_append_cons`: the words on the two sides of a blank.
-/

namespace TwoLevel
namespace Text

/-! ## 1. Blanks -/

/-- The code points of the Unicode property `White_Space`, as closed intervals. -/
def blankRanges : List (Nat × Nat) :=
  [(0x0009, 0x000D), (0x0020, 0x0020), (0x0085, 0x0085), (0x00A0, 0x00A0), (0x1680, 0x1680),
    (0x2000, 0x200A), (0x2028, 0x2029), (0x202F, 0x202F), (0x205F, 0x205F), (0x3000, 0x3000)]

/-- A character is blank when its code point lies in one of the intervals. -/
def isBlank (c : Char) : Bool :=
  blankRanges.any fun r => r.1 ≤ c.toNat && c.toNat ≤ r.2

example : (blankRanges.map fun r => r.2 + 1 - r.1).sum = 25 := by decide

example : ['\u00a0', '\u0085', '\u3000'].all isBlank = true := by decide

example : ['\u200b', '\ufeff', '\u180e', '\u001c'].any isBlank = false := by decide

/-- Every blank of ASCII is a blank here. -/
theorem isBlank_of_isWhitespace {c : Char} (h : c.isWhitespace = true) : isBlank c = true := by
  simp only [Char.isWhitespace, Bool.or_eq_true, decide_eq_true_eq] at h
  rcases h with ((h | h) | h) | h <;> subst h <;> decide

/-! ## 2. Words -/

/-- The words of a list of characters: what lies between blanks, without the empty pieces. -/
def split (cs : List Char) : List (List Char) :=
  (cs.splitOnP isBlank).filter (! ·.isEmpty)

/-- The words of a text, in order. -/
def words (text : String) : List String :=
  (split text.toList).map String.ofList

/-- The text without the blanks at both of its ends. -/
def trim (text : String) : String :=
  String.ofList ((text.toList.dropWhile isBlank).reverse.dropWhile isBlank).reverse

example : words "  a\tb  c" = ["a", "b", "c"] := by decide

example : trim "\u3000 a  b \n" = "a  b" := by decide

/-- The words on the two sides of a blank are the words of both together. -/
theorem split_append_cons {blank : Char} (h : isBlank blank = true) (xs ys : List Char) :
    split (xs ++ blank :: ys) = split xs ++ split ys := by
  simp only [split, List.splitOnP_append_cons xs ys h, List.filter_append]

theorem ne_nil_of_mem_split {cs w : List Char} (h : w ∈ split cs) : w ≠ [] := by
  simp only [split, List.mem_filter, Bool.not_eq_true', List.isEmpty_eq_false_iff] at h
  exact h.2

/-- A piece between separators holds no separator. -/
theorem not_mem_of_mem_splitOnP {p : Char → Bool} {cs : List Char} :
    ∀ w ∈ cs.splitOnP p, ∀ c ∈ w, p c = false := by
  induction cs with
  | nil => simp [List.splitOnP_nil]
  | cons d cs ih =>
    rw [List.splitOnP_cons_eq_if_modifyHead]
    split
    · simpa using ih
    · next hd =>
      cases hp : cs.splitOnP p with
      | nil => simp
      | cons w ws =>
        rw [hp] at ih
        simp only [List.modifyHead_cons, List.mem_cons, forall_eq_or_imp] at ih ⊢
        exact ⟨⟨by simpa using hd, ih.1⟩, ih.2⟩

theorem not_isBlank_of_mem_split {cs w : List Char} (h : w ∈ split cs) :
    ∀ c ∈ w, isBlank c = false :=
  not_mem_of_mem_splitOnP w (List.mem_filter.mp h).1

/-- Taking the pieces apart loses the separators only. -/
theorem flatten_splitOnP {p : Char → Bool} (cs : List Char) :
    (cs.splitOnP p).flatten = cs.filter (! p ·) := by
  induction cs with
  | nil => simp [List.splitOnP_nil]
  | cons d cs ih =>
    rw [List.splitOnP_cons_eq_if_modifyHead]
    split
    · next hd => simpa [hd] using ih
    · next hd =>
      cases hp : cs.splitOnP p with
      | nil => exact absurd hp (List.splitOnP_ne_nil p cs)
      | cons w ws =>
        rw [hp] at ih
        simp [hd, ← ih]

/-- The words hold every character that is not blank, in order. -/
theorem flatten_split (cs : List Char) : (split cs).flatten = cs.filter (! isBlank ·) := by
  rw [← flatten_splitOnP, split, List.flatten_filter_not_isEmpty]

end Text
end TwoLevel
