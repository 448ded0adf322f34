/-
# The analysis of an expression

An expression with at least one variable is analysed as a whole: its truth table, and for each
normal form the terms, the prime implicants and a cover.
-/
import TwoLevel.Cover
import TwoLevel.CoverageTable
import TwoLevel.KarnaughMap
import TwoLevel.PrimeSearch
import TwoLevel.TruthTable

namespace TwoLevel

/-- One normal form of a function, with what it is made from. -/
structure Minimization where
  search : PrimeSearch
  cover : Cover
  deriving Repr

namespace Minimization

/-- The prime implicants of the form. -/
def primes (m : Minimization) : List Implicant := m.search.primes

/-- The form of the function of a table. -/
def ofTable (t : TruthTable) (form : NormalForm) : Except Error Minimization := do
  let search ← PrimeSearch.run (t.terms form) t.vars.size
  let cover ← Cover.select search.primes (t.terms form) t.vars form
  return ⟨search, cover⟩

end Minimization

/-- Everything there is to say about an expression. -/
structure Analysis where
  expression : Expression
  table : TruthTable
  sop : Minimization
  pos : Minimization
  deriving Repr

namespace Analysis

/-- The analysis of an expression that was read. -/
def ofExpression (e : Expression) : Except Error Analysis :=
  if e.vars.isEmpty then .error .missingExpression
  else if maxVariables < e.vars.size then .error (.tooManyVariables e.vars.size)
  else do
    let table ← TruthTable.ofExpression e
    let sop ← Minimization.ofTable table .sop
    let pos ← Minimization.ofTable table .pos
    return ⟨e, table, sop, pos⟩

/-- The analysis of the expression that a text denotes. -/
def parse (source : String) : Except Error Analysis := do
  ofExpression (← Expression.parse source)

/-- The normal form of a kind. -/
def minimization (a : Analysis) : NormalForm → Minimization
  | .sop => a.sop
  | .pos => a.pos

/-- The variables of the expression. -/
def vars (a : Analysis) : Variables := a.table.vars

/-- The terms of a form. -/
def terms (a : Analysis) (form : NormalForm) : List Nat := a.table.terms form

/-- The prime implicants of a form. -/
def primes (a : Analysis) (form : NormalForm) : List Implicant := (a.minimization form).primes

/-- The prime implicants of a form as terms. -/
def primeTexts (a : Analysis) (form : NormalForm) : Except Error (List String) :=
  Implicant.renderAll (a.primes form) a.vars form

/-- The cover of a form. -/
def cover (a : Analysis) (form : NormalForm) : Cover := (a.minimization form).cover

/-- The function in a form of few terms. -/
def minimal (a : Analysis) (form : NormalForm) : String := (a.cover form).expression

/-- The coverage table of a form. -/
def coverageTable (a : Analysis) (form : NormalForm) : Except Error CoverageTable :=
  CoverageTable.ofImplicants (a.primes form) (a.terms form) a.vars form

/-- The Karnaugh map of a form. -/
def karnaughMap (a : Analysis) (form : NormalForm) : Except Error KarnaughMap :=
  KarnaughMap.ofValues a.table.values a.vars form

/-- What is told about the choice of implicants of a form. -/
def coverLog (a : Analysis) (form : NormalForm) : List Message :=
  Cover.log (a.primes form) (a.terms form) a.vars

/-- The line that sums up an analysis. -/
def summary (a : Analysis) : String :=
  "\"" ++ a.expression.source ++ "\": " ++ toString (a.terms .sop).length ++ " minterms, "
    ++ toString (a.primes .sop).length ++ " prime implicants, "
    ++ toString (a.primes .pos).length ++ " prime implicates"

/-- What is told about an analysis after the expression was read. -/
def log (a : Analysis) : List Message :=
  a.table.log a.expression ++ a.sop.search.log ++ a.pos.search.log ++ a.coverLog .sop
    ++ a.coverLog .pos ++ [⟨.info, a.summary⟩]

/-- What is told when a text is analysed, whether or not that succeeds. -/
def parseLog (source : String) : List Message :=
  match Expression.parse source with
  | .error _ => []
  | .ok e =>
    e.log ++
      match ofExpression e with
      | .error _ => []
      | .ok a => a.log

example : (parse "( a | b ) & ! c").map (fun a => (a.minimal .sop, a.minimal .pos))
    = .ok ("b & !c | a & !c", "( a | b ) & !c") := by rfl

end Analysis
end TwoLevel
