/-
# The commands of the program

Each command has a name, other words that stand for it, a line that tells what it does, and the
switches that it knows.  No word stands for two commands (`nodup_words`).
-/

namespace TwoLevel

/-- The names of the commands, in alphabetical order. -/
inductive CommandName where
  | expr
  | forms
  | help
  | kmap
  | minimize
  | primes
  | table
  deriving DecidableEq, Repr, Inhabited

/-- What can be switched on for a command. -/
inductive Switch where
  /-- Show the sum of products only. -/
  | sop
  /-- Show the product of sums only. -/
  | pos
  /-- Show the patterns of the prime implicants and the terms that they cover. -/
  | patterns
  /-- Show the coverage table of the prime implicants. -/
  | coverage
  deriving DecidableEq, Repr, Inhabited

namespace Switch

/-- The word for a switch, written after two dashes. -/
def long : Switch → String
  | .sop => "sop"
  | .pos => "pos"
  | .patterns => "patterns"
  | .coverage => "coverage"

/-- The letter for a switch, written after one dash, if it has one. -/
def short? : Switch → Option Char
  | .sop | .pos => none
  | .patterns => some 'p'
  | .coverage => some 'c'

end Switch

namespace CommandName

/-- All commands, in the order in which they are listed. -/
def all : List CommandName := [.expr, .forms, .help, .kmap, .minimize, .primes, .table]

/-- The name of a command as a word. -/
def word : CommandName → String
  | .expr => "expr"
  | .forms => "forms"
  | .help => "help"
  | .kmap => "kmap"
  | .minimize => "minimize"
  | .primes => "primes"
  | .table => "table"

/-- The other words for a command. -/
def aliases : CommandName → List String
  | .expr => ["expression", "parse"]
  | .forms => ["canonical", "normal"]
  | .help => ["commands"]
  | .kmap => ["karnaugh"]
  | .minimize => ["min", "minimal"]
  | .primes => ["pi", "implicants"]
  | .table => ["truth", "tt"]

/-- What a command does. -/
def about : CommandName → String
  | .expr => "Parse and analyse an expression"
  | .forms => "Show the canonical forms of the current expression"
  | .help => "List available commands"
  | .kmap => "Show the Karnaugh map of the current expression"
  | .minimize => "Compute the minimal forms of the current expression"
  | .primes => "Compute the prime implicants of the current expression"
  | .table => "Show the truth table of the current expression"

/-- The switches that a command knows. -/
def switches : CommandName → List Switch
  | .kmap => [.sop, .pos]
  | .minimize => [.sop, .pos, .coverage]
  | .primes => [.sop, .pos, .patterns]
  | .expr | .forms | .help | .table => []

/-- The number of values that a command takes at most. -/
def maxValues : CommandName → Nat
  | .expr => 1
  | _ => 0

/-- All words for a command. -/
def words (n : CommandName) : List String := n.word :: n.aliases

/-- The command that a word stands for. -/
def ofWord? (w : String) : Option CommandName :=
  all.find? fun n => w ∈ n.words

/-- No word stands for two commands. -/
theorem nodup_words : (all.flatMap words).Nodup := by decide

theorem mem_all (n : CommandName) : n ∈ all := by cases n <;> decide

theorem ofWord?_eq_some {w : String} {n : CommandName} (h : ofWord? w = some n) :
    w ∈ n.words := by
  simpa using List.find?_some h

theorem isSome_ofWord? {w : String} {n : CommandName} (h : w ∈ n.words) :
    (ofWord? w).isSome = true :=
  List.find?_isSome.mpr ⟨n, mem_all n, by simpa using h⟩

end CommandName
end TwoLevel
