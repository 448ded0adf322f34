/-
# What the commands print

Each command has one text, computed from the analysis of the current expression.
-/
import TwoLevel.Analysis
import TwoLevel.Command.Name

namespace TwoLevel
namespace Report

/-- A line of text. -/
def line (text : String) : String := text ++ "\n"

/-! ## 1. The list of commands -/

/-- The line of the list of commands for one of them. -/
def commandLine (n : CommandName) : String :=
  line ("  " ++ Text.padRight 20 n.word ++ " " ++ n.about)

/-- What the program is, its commands, and how expressions are written. -/
def help : String :=
  line "logimin 0.1.0" ++
  line "Evaluate and minimize small propositional logic expressions" ++
  line "" ++
  line "Available commands" ++
  line "==================" ++
  String.join (CommandName.all.map commandLine) ++
  line "" ++
  line "Expressions use space-separated tokens over the variables a to e," ++
  line "with the operators ! & | -> ~ and parentheses, e.g. \"( a | b ) & ! c\""

/-! ## 2. The current expression -/

/-- The request for an expression. -/
def prompt : String :=
  line "Enter an expression with spaces between tokens, e.g. ( a | b ) & ! c"

/-- An expression that was analysed. -/
def expression (a : Analysis) : String :=
  line ("Expression: " ++ a.expression.source) ++
  line ("Variables: " ++ a.vars.text) ++
  line ("RPN: " ++ a.expression.postfixText)

/-- The truth table. -/
def table (a : Analysis) : String :=
  line "Truth table:" ++ a.table.text ++ line ""

/-- Terms as a list of numbers, or a word for no terms. -/
def numerical (terms : List Nat) : String :=
  if terms.isEmpty then "empty" else Text.commaList terms

/-- The canonical forms and the index of the function. -/
def canonicalForms (a : Analysis) : String :=
  line ("PDNF: " ++ a.table.canonicalText .sop) ++
  line ("PCNF: " ++ a.table.canonicalText .pos) ++
  line ("PDNF (numerical): " ++ numerical (a.terms .sop)) ++
  line ("PCNF (numerical): " ++ numerical (a.terms .pos)) ++
  line ("Index form: " ++ toString a.table.index.toNat ++ " - " ++ a.table.binary) ++
  line ""

/-! ## 3. Minimal forms -/

/-- The prime implicants of a form are called implicates in a product of sums. -/
def primesName : NormalForm → String
  | .sop => "implicants"
  | .pos => "implicates"

/-- The prime implicants of one form, with their patterns if wanted. -/
def primesOf (a : Analysis) (patterns : Bool) (form : NormalForm) : Except Error String := do
  let texts ← a.primeTexts form
  return line ("Prime " ++ primesName form ++ " (" ++ form.name ++ "): " ++ ", ".intercalate texts)
    ++ if patterns then Implicant.listText (a.primes form) else ""

/-- The minimal expression of one form. -/
def minimalLine (a : Analysis) (form : NormalForm) : String :=
  line ("Minimal " ++ form.name ++ ": " ++ a.minimal form)

/-- The terms that a cover leaves out, if there are any. -/
def uncoveredLine (c : Cover) : String :=
  if c.isComplete then ""
  else line ("  uncovered terms: " ++ Text.commaList c.uncovered.toList)

/-- One form in few terms, under the coverage table if wanted. -/
def minimizedOf (a : Analysis) (coverage : Bool) (form : NormalForm) : Except Error String := do
  let table ← if coverage then (a.coverageTable form).map (·.text) else .ok ""
  return table ++ minimalLine a form ++ uncoveredLine (a.cover form)

/-- The Karnaugh map of one form. -/
def mapOf (a : Analysis) (form : NormalForm) : Except Error String := do
  let map ← a.karnaughMap form
  return map.text ++ minimalLine a form ++ line ""

/-- The prime implicants of some forms. -/
def primes (a : Analysis) (forms : List NormalForm) (patterns : Bool) : Except Error String :=
  (collect (primesOf a patterns) forms).map fun texts => String.join texts ++ line ""

/-- Some forms in few terms. -/
def minimized (a : Analysis) (forms : List NormalForm) (coverage : Bool) :
    Except Error String :=
  (collect (minimizedOf a coverage) forms).map fun texts => String.join texts ++ line ""

/-- The Karnaugh maps of some forms. -/
def maps (a : Analysis) (forms : List NormalForm) : Except Error String :=
  (collect (mapOf a) forms).map String.join

end Report
end TwoLevel
