/-
# Chained commands

The arguments of the program are cut into slices: each word for a command opens a slice, which
goes on to the next such word.  A run has the slices one at a time, each from the front of the
arguments that are left (`Slice.next?`).

* `words_split`: nothing is lost where all arguments are cut;
* `words_next?`, `length_lt_of_next?`: the slice in front and the arguments behind it are the
  arguments that were left, and there are fewer behind it;
* `split_of_next?`, `next?_of_split`: the slices of all arguments are those that are taken from the
  front, one after the other.
-/
import TwoLevel.Command.Name

namespace TwoLevel

/-- A word for a command and the arguments after it. -/
structure Slice where
  name : CommandName
  word : String
  arguments : List String
  deriving DecidableEq, Repr

namespace Slice

/-- The arguments of the program that make a slice. -/
def words (s : Slice) : List String := s.word :: s.arguments

/-! ## 1. The slice in front -/

/-- Whether an argument is no word for a command. -/
def isOwn (word : String) : Bool := (CommandName.ofWord? word).isNone

/-- The slice in front of some arguments and the arguments behind it, if the first of them is a word
for a command.  The slice goes on to the next such word. -/
def next? : List String → Option (Slice × List String)
  | [] => none
  | word :: words =>
    (CommandName.ofWord? word).map fun name =>
      (⟨name, word, words.takeWhile isOwn⟩, words.dropWhile isOwn)

example : next? ["expr", "a", "tt", "min"] = some (⟨.expr, "expr", ["a"]⟩, ["tt", "min"]) := by
  decide

/-- Its first word is a word for its command, and no other argument is a word for a command. -/
def IsCut (s : Slice) : Prop :=
  CommandName.ofWord? s.word = some s.name ∧ ∀ w ∈ s.arguments, CommandName.ofWord? w = none

variable {args rest : List String} {slice : Slice}

theorem next?_eq_some_iff :
    next? args = some (slice, rest) ↔
      ∃ words, args = slice.word :: words ∧ CommandName.ofWord? slice.word = some slice.name ∧
        slice.arguments = words.takeWhile isOwn ∧ rest = words.dropWhile isOwn := by
  cases args with
  | nil => simp [next?]
  | cons word words =>
    obtain ⟨name, first, own⟩ := slice
    simp only [next?, Option.map_eq_some_iff, Prod.mk.injEq, Slice.mk.injEq, List.cons.injEq]
    constructor
    · rintro ⟨n, hn, ⟨rfl, rfl, rfl⟩, rfl⟩
      exact ⟨words, ⟨rfl, rfl⟩, hn, rfl, rfl⟩
    · rintro ⟨_, ⟨rfl, rfl⟩, hn, rfl, rfl⟩
      exact ⟨name, hn, ⟨rfl, rfl, rfl⟩, rfl⟩

/-- There is no slice in front of arguments that begin with another word. -/
theorem next?_eq_none_iff :
    next? args = none ↔ ∀ word rest, args = word :: rest → CommandName.ofWord? word = none := by
  cases args with
  | nil => simp [next?]
  | cons word words => simp [next?]

/-- A slice and the arguments behind it are the arguments. -/
theorem words_next? (h : next? args = some (slice, rest)) : slice.words ++ rest = args := by
  obtain ⟨words, rfl, -, hown, rfl⟩ := next?_eq_some_iff.mp h
  rw [Slice.words, hown, List.cons_append, List.takeWhile_append_dropWhile]

theorem length_lt_of_next? (h : next? args = some (slice, rest)) : rest.length < args.length := by
  have hlength := congrArg List.length (words_next? h)
  simp only [Slice.words, List.length_append, List.length_cons] at hlength
  omega

theorem isCut_of_next? (h : next? args = some (slice, rest)) : slice.IsCut := by
  obtain ⟨words, rfl, hname, hown, -⟩ := next?_eq_some_iff.mp h
  refine ⟨hname, fun w hw => ?_⟩
  rw [hown] at hw
  exact Option.isNone_iff_eq_none.mp (List.all_eq_true.mp List.all_takeWhile w hw)

/-- Behind a slice there is a word for a command, or nothing. -/
theorem ne_none_of_next? (h : next? args = some (slice, rest)) {word : String}
    {words : List String} (hrest : rest = word :: words) : CommandName.ofWord? word ≠ none := by
  obtain ⟨own, -, -, -, hown⟩ := next?_eq_some_iff.mp h
  have hfirst := List.head?_dropWhile_not isOwn own
  rw [← hown, hrest] at hfirst
  have hword : isOwn word = false := hfirst
  intro hnone
  rw [isOwn, hnone] at hword
  cases hword

/-! ## 2. All slices -/

/-- The words before the first command, and the slices. -/
def split : List String → List String × List Slice
  | [] => ([], [])
  | w :: ws =>
    match CommandName.ofWord? w, split ws with
    | some n, (lead, slices) => ([], ⟨n, w, lead⟩ :: slices)
    | none, (lead, slices) => (w :: lead, slices)

example : (split ["expr", "a & b", "tt", "min", "--pos"]).2.map words
    = [["expr", "a & b"], ["tt"], ["min", "--pos"]] := by decide

/-- The words before the first command and the slices are all arguments, in order. -/
theorem words_split (args : List String) :
    (split args).1 ++ (split args).2.flatMap words = args := by
  induction args with
  | nil => rfl
  | cons w ws ih =>
    rw [split]
    split
    · next n lead slices _ h =>
      rw [h] at ih
      simpa [words] using ih
    · next lead slices _ h =>
      rw [h] at ih
      simpa using ih

/-- Arguments are split at the first word for a command. -/
theorem split_eq (args : List String) :
    split args = (args.takeWhile isOwn, (split (args.dropWhile isOwn)).2) := by
  induction args with
  | nil => rfl
  | cons word words ih =>
    cases hname : CommandName.ofWord? word with
    | none =>
      have hown : isOwn word = true := by rw [isOwn, hname]; rfl
      rw [List.takeWhile_cons_of_pos hown, List.dropWhile_cons_of_pos hown, split, hname, ih]
    | some name =>
      have hown : ¬ isOwn word = true := by rw [isOwn, hname]; exact Bool.false_ne_true
      rw [List.takeWhile_cons_of_neg hown, List.dropWhile_cons_of_neg hown, split, hname]

/-- **The slices of all arguments are the slice in front and those of the arguments behind it.** -/
theorem split_of_next? (h : next? args = some (slice, rest)) :
    split args = ([], slice :: (split rest).2) := by
  obtain ⟨words, rfl, hname, hown, rfl⟩ := next?_eq_some_iff.mp h
  rw [split, hname, split_eq words, ← hown]

/-- Where the arguments are split without a rest in front, the first slice is the one in front. -/
theorem next?_of_split {slices : List Slice} (h : split args = ([], slice :: slices)) :
    ∃ rest, next? args = some (slice, rest) ∧ split rest = ([], slices) := by
  cases hnext : next? args with
  | none =>
    cases args with
    | nil => cases h
    | cons word words =>
      rw [split, next?_eq_none_iff.mp hnext word words rfl] at h
      cases h
  | some front =>
    obtain ⟨front, rest⟩ := front
    rw [split_of_next? hnext] at h
    obtain ⟨rfl, hslices⟩ := List.cons.inj (Prod.mk.inj h).2
    refine ⟨rest, rfl, Prod.ext ?_ hslices⟩
    cases hrest : rest with
    | nil => rfl
    | cons word words =>
      have hsome := ne_none_of_next? hnext hrest
      cases hname : CommandName.ofWord? word with
      | none => exact absurd hname hsome
      | some name => rw [split, hname]

theorem eq_nil_of_split (h : split args = ([], [])) : args = [] := by
  have hwords := words_split args
  rw [h] at hwords
  exact hwords.symm

/-- A word in front of the first slice is the first argument, and stands for no command. -/
theorem of_split_fst {word : String} {lead : List String} (h : (split args).1 = word :: lead) :
    args.head? = some word ∧ next? args = none := by
  cases args with
  | nil => cases h
  | cons w ws =>
    cases hname : CommandName.ofWord? w with
    | none =>
      rw [split, hname] at h
      obtain ⟨rfl, -⟩ := List.cons.inj h
      exact ⟨rfl, by rw [next?, hname]; rfl⟩
    | some name =>
      rw [split, hname] at h
      cases h

/-! ## 3. The slices of a run -/

/-- The arguments that a run works through.  Without any it lists its commands. -/
def given (args : List String) : List String :=
  if args.isEmpty then [CommandName.help.word] else args

/-- The slices of a run. -/
def ofArguments (args : List String) : List Slice := (split (given args)).2

theorem given_of_ne_nil (h : args ≠ []) : given args = args :=
  if_neg fun hempty => h (List.isEmpty_iff.mp hempty)

end Slice
end TwoLevel
