/-
# Lists of variables

The variables of an expression are its distinct names in increasing order.  The place of a name
in this list is the place of its bit in a row index and in a pattern.
-/
import TwoLevel.Ascending
import TwoLevel.RowIndex
import TwoLevel.Token

namespace TwoLevel

/-- Distinct names in increasing order. -/
abbrev Variables := Ascending Char

namespace Variables

/-- The variables among some names, in any order and with any repetitions. -/
def ofNames (names : List Char) : Variables :=
  Ascending.ofList names

/-- The variables that occur among tokens. -/
def ofTokens (tokens : List Token) : Variables :=
  ofNames (tokens.filterMap Token.name?)

/-- The variables that occur in a text; its other words count for nothing. -/
def ofText (source : String) : Variables :=
  ofTokens (Token.ofText source)

/-- The number of rows of a truth table over these variables.  It has no bound here; what a word of
some bits makes of it is in `TwoLevel.Proofs.WordCover`. -/
def rowCount (vs : Variables) : Nat :=
  RowIndex.count vs.size

/-- The name at a place. -/
def get? (vs : Variables) (place : Nat) : Option Char :=
  vs.toList[place]?

/-- The place of a name. -/
def position? (vs : Variables) (name : Char) : Option Nat :=
  vs.toList.idxOf? name

/-- The names set apart by spaces. -/
def text (vs : Variables) : String :=
  " ".intercalate (vs.toList.map Char.toString)

example : (ofText "( c | a ) & ! c -> b").toList = ['a', 'b', 'c'] := by decide

example : (ofText "a & x | foo").toList = ['a'] := by decide

@[simp] theorem mem_ofNames {names : List Char} {c : Char} : c ∈ ofNames names ↔ c ∈ names :=
  Ascending.mem_ofList

@[simp] theorem mem_ofTokens {tokens : List Token} {c : Char} :
    c ∈ ofTokens tokens ↔ Token.var c ∈ tokens := by
  simp [ofTokens]

end Variables
end TwoLevel
