/-
# Messages about the work done

The work of the library is pure, and what it has to tell about its progress is a list of
messages computed from the same data.  A message has a level; a threshold lets through the
messages that are at least as grave as it (`Threshold.passes`).
-/

namespace TwoLevel

/-- How grave a message is, the gravest first. -/
inductive Level where
  | error
  | warn
  | info
  | debug
  | trace
  deriving DecidableEq, Repr, Inhabited

namespace Level

/-- All levels, the gravest first. -/
def all : List Level := [.error, .warn, .info, .debug, .trace]

/-- The word for a level. -/
def name : Level → String
  | .error => "ERROR"
  | .warn => "WARN"
  | .info => "INFO"
  | .debug => "DEBUG"
  | .trace => "TRACE"

/-- The place of a level among all levels: a smaller rank is graver. -/
def rank : Level → Nat
  | .error => 0
  | .warn => 1
  | .info => 2
  | .debug => 3
  | .trace => 4

end Level

/-- A message about the work done. -/
structure Message where
  level : Level
  text : String
  deriving DecidableEq, Repr, Inhabited

/-- The level, a space and the text. -/
def Message.line (m : Message) : String :=
  m.level.name ++ " " ++ m.text

/-- The least grave level that is shown; `none` shows nothing. -/
abbrev Threshold := Option Level

namespace Threshold

/-- The words that choose a threshold, in capitals. -/
def table : List (String × Threshold) :=
  ("OFF", none) :: Level.all.map fun l => (l.name, some l)

/-- The threshold that a word chooses, whatever the case of its letters of ASCII.  Warnings and
errors are shown when the word is unknown or missing. -/
def ofWord (word : Option String) : Threshold :=
  match word.bind fun w => table.lookup (String.ofList (w.toList.map Char.toUpper)) with
  | some threshold => threshold
  | none => some .warn

/-- A message passes when its level is at least as grave as the threshold. -/
def passes (threshold : Threshold) (m : Message) : Bool :=
  match threshold with
  | none => false
  | some l => m.level.rank ≤ l.rank

/-- How many of the messages that pass have the given level. -/
def count (threshold : Threshold) (messages : List Message) (l : Level) : Nat :=
  (messages.filter fun m => threshold.passes m && m.level = l).length

end Threshold

example : Threshold.ofWord (some "Trace") = some .trace := by decide

example : Threshold.ofWord (some "verbose") = some .warn := by decide

example : Threshold.ofWord none = some .warn := by decide

end TwoLevel
