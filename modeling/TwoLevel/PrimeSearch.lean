/-
# The search for prime implicants

The search starts from one implicant for each term and goes on in generations.  In a generation
each pair of neighbours is merged; the merged implicants are the next generation, each pattern
once, and what has no neighbour is prime.  A merged pattern has one more free position, so there
are no more generations than positions and one.

No search is needed when there are no terms, or when every row is a term.
-/
import TwoLevel.Distinct
import TwoLevel.Implicant
import TwoLevel.Log

namespace TwoLevel

/-! ## 1. One generation -/

/-- Two neighbours and what they merge into. -/
structure Merge where
  left : Implicant
  right : Implicant
  product : Implicant
  deriving Repr

/-- The implicants that are merged at the same time. -/
structure Generation where
  number : Nat
  members : List Implicant
  deriving Repr

/-- All pairs of an element and a later one, in order. -/
def pairs {α : Type} : List α → List (α × α)
  | [] => []
  | x :: xs => xs.map (x, ·) ++ pairs xs

theorem mem_of_mem_pairs {α : Type} {xs : List α} {x y : α} (h : (x, y) ∈ pairs xs) :
    x ∈ xs ∧ y ∈ xs := by
  induction xs with
  | nil => simp [pairs] at h
  | cons z zs ih =>
    rcases List.mem_append.mp h with h | h
    · obtain ⟨w, hw, e⟩ := List.mem_map.mp h
      cases e
      simp [hw]
    · simp [ih h]

namespace Generation

/-- The merges of a generation, in the order of its pairs. -/
def merges (g : Generation) : List Merge :=
  (pairs g.members).filterMap fun (i, j) => (i.merge? j).map fun m => ⟨i, j, m⟩

/-- The members without a neighbour. -/
def unmerged (g : Generation) : List Implicant :=
  g.members.filter fun i => g.members.all fun j => (i.merge? j).isNone

/-- The number of members with a neighbour. -/
def mergedCount (g : Generation) : Nat :=
  g.members.length - g.unmerged.length

/-- The terms that the implicants of one pattern cover together. -/
def coveredBy (is : List Implicant) (p : Pattern) : TermSet :=
  ((is.filter (·.pattern = p)).map (·.covered)).foldr Ascending.union .empty

/-- The implicants of the merged patterns, each pattern once, in the order of discovery. -/
def offspring (g : Generation) : List Implicant :=
  let products := g.merges.map (·.product)
  (distinct (products.map (·.pattern))).map fun p => .ofCovered p (coveredBy products p)

/-- What is told about a generation: its merges, and then its size and what became of it. -/
def log (g : Generation) : List Message :=
  g.merges.map (fun m =>
    ⟨.trace, "Merge " ++ m.left.pattern.text ++ " and " ++ m.right.pattern.text ++ " into "
      ++ m.product.pattern.text⟩) ++
  [⟨.debug, "Generation " ++ toString g.number ++ ": " ++ toString g.members.length
    ++ " implicants, " ++ toString g.mergedCount ++ " merged, "
    ++ toString g.offspring.length ++ " new"⟩]

/-- The generation of some members and those that follow it, at most `count` in all and none
without members. -/
def succession (count : Nat) (g : Generation) : List Generation :=
  match count with
  | 0 => []
  | count + 1 =>
    if g.members.isEmpty then []
    else g :: succession count ⟨g.number + 1, g.offspring⟩

end Generation

/-! ## 2. The search -/

/-- How the prime implicants of some terms are found. -/
inductive PrimeSearch where
  /-- There are no terms. -/
  | nothing
  /-- Every row is a term, and the pattern of all rows is the only prime implicant. -/
  | everything (universal : Pattern)
  /-- The prime implicants are what is left over in each generation. -/
  | generations (gs : List Generation)
  deriving Repr

namespace PrimeSearch

/-- The search for the terms over a number of variables. -/
def run (terms : List Nat) (width : Nat) : Except Error PrimeSearch :=
  if terms.isEmpty then .ok .nothing
  else do
    let universal ← Pattern.universal width
    match terms.find? (RowIndex.count width ≤ ·) with
    | some t => .error (.termOutOfRange t width)
    | none =>
      if (distinct terms).length = RowIndex.count width then .ok (.everything universal)
      else do
        let first ← collect (Implicant.ofTerm · width) (distinct terms)
        .ok (.generations (Generation.succession (width + 1) ⟨0, first⟩))

/-- The prime implicants, by generation and then in the order of discovery. -/
def primes : PrimeSearch → List Implicant
  | .nothing => []
  | .everything p => [.ofPattern p]
  | .generations gs => gs.flatMap Generation.unmerged

/-- What is told about a search. -/
def log : PrimeSearch → List Message
  | .nothing => []
  | .everything _ => []
  | .generations gs => gs.flatMap Generation.log

end PrimeSearch

/-- The prime implicants of the terms over a number of variables. -/
def primeImplicants (terms : List Nat) (width : Nat) : Except Error (List Implicant) :=
  (PrimeSearch.run terms width).map PrimeSearch.primes

example : (primeImplicants [0, 2, 4, 6, 7] 3).map (·.map (·.pattern.text))
    = .ok ["11-", "--0"] := by rfl

end TwoLevel
