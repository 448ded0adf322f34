/-
# Tokens

A word of an expression is one token: a variable, an operator, a parenthesis, or a word of no
meaning, which is kept so that it can be named when it is refused.  Each word is the text of
its token (`text_ofWord`).
-/
import TwoLevel.Operator
import TwoLevel.Text.Words

namespace TwoLevel

/-- The words of an expression by their meaning. -/
inductive Token where
  | var (name : Char)
  | op (operator : Operator)
  | leftParen
  | rightParen
  /-- A word without a meaning. -/
  | unknown (word : String)
  deriving DecidableEq, Repr, Inhabited

namespace Token

/-- The names of variables are the letters from `a` to `e`. -/
def isVariable (c : Char) : Bool :=
  'a' ≤ c && c ≤ 'e'

/-- The meaning of a word that is not a variable. -/
def ofSymbol (word : String) : Token :=
  if word = "(" then .leftParen
  else if word = ")" then .rightParen
  else
    match Operator.ofSymbol? word with
    | some o => .op o
    | none => .unknown word

/-- The meaning of a word: a single letter of the alphabet of variables is a variable. -/
def ofWord (word : String) : Token :=
  match word.toList with
  | [c] => if isVariable c then .var c else ofSymbol word
  | _ => ofSymbol word

/-- The word that a token was read from. -/
def text : Token → String
  | .var name => name.toString
  | .op o => o.symbol
  | .leftParen => "("
  | .rightParen => ")"
  | .unknown word => word

/-- The name, if the token is a variable. -/
def name? : Token → Option Char
  | .var name => some name
  | _ => none

/-- The tokens of an expression, one for each of its words. -/
def ofText (source : String) : List Token :=
  (Text.words source).map ofWord

example : ofText "( a | b ) & ! c"
    = [.leftParen, .var 'a', .op .or, .var 'b', .rightParen, .op .and, .op .not, .var 'c'] := by
  decide

example : ofText "a && f" = [.var 'a', .unknown "&&", .unknown "f"] := by decide

@[simp] theorem name?_eq_some_iff {t : Token} {c : Char} : t.name? = some c ↔ t = .var c := by
  cases t <;> simp [name?]

@[simp] theorem text_ofSymbol (word : String) : (ofSymbol word).text = word := by
  unfold ofSymbol
  split
  · next h => exact h.symm
  · split
    · next h => exact h.symm
    · split
      · next h => exact (Operator.ofSymbol?_eq_some_iff.mp h).symm
      · rfl

/-- Each word is the text of its token. -/
@[simp] theorem text_ofWord (word : String) : (ofWord word).text = word := by
  unfold ofWord
  split
  · next c h =>
    split
    · exact String.toList_inj.mp (by simp [text, h])
    · exact text_ofSymbol word
  · exact text_ofSymbol word

/-- The texts of the tokens are the words. -/
@[simp] theorem map_text_ofText (source : String) :
    (ofText source).map text = Text.words source := by
  simp [ofText, Function.comp_def]

end Token
end TwoLevel
