/-
# Columns and lists in a text

Tables and maps are laid out in columns.  The width of a column counts characters, and a text
that is longer than its column is not cut (`length_padRight`).
-/

namespace TwoLevel
namespace Text

/-- `width` copies of one character. -/
def replicate (width : Nat) (c : Char) : String :=
  String.ofList (List.replicate width c)

/-- The text, filled up with spaces on the right to `width` characters. -/
def padRight (width : Nat) (text : String) : String :=
  text ++ replicate (width - text.length) ' '

/-- A value as one of the digits `0` and `1`. -/
def bitDigit (value : Bool) : Char :=
  if value then '1' else '0'

/-- Values written as digits without a separator, the first one leftmost. -/
def bitDigits (values : List Bool) : String :=
  String.ofList (values.map bitDigit)

/-- Numbers set apart by a comma and a space. -/
def commaList (numbers : List Nat) : String :=
  ", ".intercalate (numbers.map toString)

example : padRight 4 "ab" = "ab  " := by decide

example : padRight 1 "ab" = "ab" := by decide

example : commaList [0, 12] = "0, 12" := by decide

@[simp] theorem length_replicate (width : Nat) (c : Char) :
    (replicate width c).length = width := by
  simp [replicate]

@[simp] theorem length_padRight (width : Nat) (text : String) :
    (padRight width text).length = max width text.length := by
  simp only [padRight, String.length_append, length_replicate]
  omega

@[simp] theorem length_bitDigits (values : List Bool) :
    (bitDigits values).length = values.length := by
  simp [bitDigits]

/-- What is found in joined lines is in the separator or in one of them. -/
theorem mem_intercalate_chars {sep : List Char} {pieces : List (List Char)} {c : Char}
    (h : c ∈ sep.intercalate pieces) : c ∈ sep ∨ ∃ p ∈ pieces, c ∈ p := by
  induction pieces with
  | nil => simp at h
  | cons p pieces ih =>
    by_cases hnil : pieces = []
    · subst hnil
      exact .inr ⟨p, List.mem_cons_self, by simpa using h⟩
    · rw [List.intercalate_cons_of_ne_nil hnil, List.mem_append, List.mem_append] at h
      rcases h with (h | h) | h
      · exact .inr ⟨p, List.mem_cons_self, h⟩
      · exact .inl h
      · exact (ih h).imp_right fun ⟨q, hq, hc⟩ => ⟨q, List.mem_cons_of_mem p hq, hc⟩

/-- What is found in joined texts is in the separator or in one of them. -/
theorem mem_intercalate {sep : String} {texts : List String} {c : Char}
    (h : c ∈ (sep.intercalate texts).toList) : c ∈ sep.toList ∨ ∃ s ∈ texts, c ∈ s.toList := by
  rw [String.toList_intercalate] at h
  refine (mem_intercalate_chars h).imp_right fun ⟨p, hp, hc⟩ => ?_
  obtain ⟨s, hs, rfl⟩ := List.mem_map.mp hp
  exact ⟨s, hs, hc⟩

end Text
end TwoLevel
