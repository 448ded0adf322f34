/-
# Runs of the program

A run goes through its arguments from the left.  Each step takes the slice in front, has a parser
read its arguments and runs its command (`Session.step`).  What one command leaves to the next is
the analysis of the current expression and what is left of the input.  The run ends when no
arguments are left, when the word in front stands for no command, or at the first slice that does
not go on; what was printed before stays.

* `Session.length_lt_of_step`: each step that goes on leaves fewer arguments;
* `Session.runFrom_of_ok`, `Session.runFrom_of_error`, `Session.runFrom_of_none`: a run step by
  step.
-/
import TwoLevel.Command.Options
import TwoLevel.Command.Report

namespace TwoLevel

/-! ## 1. Input -/

/-- The input as bytes that are still to be read. -/
abbrev Input := List UInt8

/-- The bytes of the first line, with the line break that ends it, and the bytes after it. -/
def takeLine : Input → Input × Input
  | [] => ([], [])
  | b :: bs =>
    if b = 10 then ([b], bs)
    else
      let (line, rest) := takeLine bs
      (b :: line, rest)

/-- The text that bytes denote, if they are well-formed. -/
def decodeLine (bytes : Input) : Except Error String :=
  match String.fromUTF8? ⟨bytes.toArray⟩ with
  | some text => .ok text
  | none => .error .unreadableLine

theorem takeLine_append (input : Input) : (takeLine input).1 ++ (takeLine input).2 = input := by
  induction input with
  | nil => rfl
  | cons b bs ih =>
    rw [takeLine]
    split
    · rfl
    · simpa using ih

/-! ## 2. One command -/

/-- What one command leaves to the next. -/
structure Session where
  current : Option Analysis
  input : Input

/-- How a run ends at a slice after which it does not go on. -/
inductive Failure where
  /-- Its arguments are refused. -/
  | usage
  /-- Its arguments asked for a text, and this was shown. -/
  | answered
  | error (e : Error)
  deriving DecidableEq, Repr

/-- What a command printed and told, and how it ended. -/
structure Outcome where
  printed : String
  log : List Message
  result : Except Failure Session

namespace Command

/-- Whether a command reads a line of the input. -/
def readsLine : Command → Bool
  | .expr none => true
  | _ => false

/-- The outcome of a command that prints a text about the current expression. -/
def display (s : Session) (report : Analysis → Except Error String) : Outcome :=
  match s.current with
  | none => ⟨"", [], .error (.error .missingExpression)⟩
  | some a =>
    match report a with
    | .ok text => ⟨text, [], .ok s⟩
    | .error e => ⟨"", [], .error (.error e)⟩

/-- The outcome of the analysis of a text, which becomes the current expression. -/
def analyse (s : Session) (text : String) : Outcome :=
  let source := Text.trim text
  let log := ⟨.debug, "Analysing expression: " ++ source⟩ :: Analysis.parseLog source
  match Analysis.parse source with
  | .ok a => ⟨Report.expression a, log, .ok { s with current := some a }⟩
  | .error e => ⟨"", log, .error (.error e)⟩

/-- The outcome of a command. -/
def run (c : Command) (s : Session) : Outcome :=
  match c with
  | .help => ⟨Report.help, [], .ok s⟩
  | .expr (some text) => analyse s text
  | .expr none =>
    let (line, rest) := takeLine s.input
    match decodeLine line with
    | .ok text => analyse { s with input := rest } text
    | .error e => ⟨"", [], .error (.error e)⟩
  | .table => display s fun a => .ok (Report.table a)
  | .forms => display s fun a => .ok (Report.canonicalForms a)
  | .primes fs patterns => display s fun a => Report.primes a fs patterns
  | .minimize fs coverage => display s fun a => Report.minimized a fs coverage
  | .kmap fs => display s fun a => Report.maps a fs

end Command

namespace Slice

/-- Whether a slice reads a line of the input. -/
def readsLine (parse : Parser) (slice : Slice) : Bool :=
  (Command.ofSlice? parse slice).any Command.readsLine

/-- What a slice prints before it reads its line. -/
def prompt (parse : Parser) (slice : Slice) : String :=
  if slice.readsLine parse then Report.prompt else ""

end Slice

/-! ## 3. One step -/

/-- Where a run stands after a step. -/
inductive Progress where
  /-- Another session goes on with the arguments that are left. -/
  | goesOn (s : Session) (left : List String)
  | ended (failure : Option Failure)

/-- What a step printed and told, and where the run stands after it. -/
structure Step where
  printed : String
  log : List Message
  progress : Progress

/-- Where a run stands after a command, with some arguments left. -/
def Outcome.progress (o : Outcome) (left : List String) : Progress :=
  match o.result with
  | .ok next => .goesOn next left
  | .error f => .ended (some f)

namespace Session

/-- The outcome of a slice: that of its command, if the parser reads options from its arguments. -/
def runSlice (parse : Parser) (s : Session) (slice : Slice) : Outcome :=
  match parse slice with
  | .options o => (Command.ofOptions slice.name o).run s
  | .refused => ⟨"", [], .error .usage⟩
  | .answered text => ⟨text, [], .error .answered⟩

/-- The step of a run with some arguments left. -/
def step (parse : Parser) (s : Session) (args : List String) : Step :=
  match Slice.next? args with
  | some (slice, left) =>
    let outcome := s.runSlice parse slice
    ⟨outcome.printed, outcome.log, outcome.progress left⟩
  | none => ⟨"", [], .ended (args.head?.map fun word => .error (.unknownCommand word))⟩

/-- Whether a step reads a line of the input. -/
def readsLine (parse : Parser) (args : List String) : Bool :=
  (Slice.next? args).any fun (slice, _) => slice.readsLine parse

/-- What a step prints before it reads its line. -/
def prompt (parse : Parser) (args : List String) : String :=
  if readsLine parse args then Report.prompt else ""

variable {parse : Parser} {s t : Session} {args left : List String} {slice : Slice} {f : Failure}

theorem runSlice_of_command {c : Command} (h : Command.ofSlice? parse slice = some c) :
    s.runSlice parse slice = c.run s := by
  obtain ⟨o, ho, rfl⟩ := Command.ofSlice?_eq_some_iff.mp h
  rw [runSlice, ho]

theorem step_of_next? (h : Slice.next? args = some (slice, left)) :
    s.step parse args = ⟨(s.runSlice parse slice).printed, (s.runSlice parse slice).log,
      (s.runSlice parse slice).progress left⟩ := by
  rw [step, h]

theorem step_of_none (h : Slice.next? args = none) :
    s.step parse args
      = ⟨"", [], .ended (args.head?.map fun word => .error (.unknownCommand word))⟩ := by
  rw [step, h]

theorem prompt_of_next? (h : Slice.next? args = some (slice, left)) :
    prompt parse args = slice.prompt parse := by
  rw [prompt, readsLine, h]
  rfl

theorem prompt_of_none (h : Slice.next? args = none) : prompt parse args = "" := by
  rw [prompt, readsLine, h]
  rfl

/-- **Each step that goes on leaves fewer arguments.** -/
theorem length_lt_of_step (h : (s.step parse args).progress = .goesOn t left) :
    left.length < args.length := by
  cases hnext : Slice.next? args with
  | none =>
    rw [step_of_none hnext] at h
    cases h
  | some front =>
    obtain ⟨slice, rest⟩ := front
    rw [step_of_next? hnext, Outcome.progress] at h
    split at h
    · cases h
      exact Slice.length_lt_of_next? hnext
    · cases h

end Session

/-! ## 4. Runs -/

/-- All that a run printed and told, and how it ended if it did not work through its arguments. -/
structure Transcript where
  printed : String
  log : List Message
  failure : Option Failure
  deriving DecidableEq, Repr

/-- The exit status of the program.  A text that was asked for is no fault. -/
def exitStatus : Option Failure → Nat
  | none | some .answered => 0
  | some .usage | some (.error _) => 1

namespace Transcript

/-- The exit status of the program. -/
def status (t : Transcript) : Nat := exitStatus t.failure

/-- A transcript with what came before it. -/
def after (printed : String) (log : List Message) (t : Transcript) : Transcript :=
  ⟨printed ++ t.printed, log ++ t.log, t.failure⟩

end Transcript

/-- The line that reports an error. -/
def Error.line (e : Error) : String := "ERROR: " ++ e.message

namespace Session

/-- Nothing is analysed yet. -/
def start (input : Input) : Session := ⟨none, input⟩

/-- What is told when all commands have succeeded. -/
def completed : Message := ⟨.debug, "All commands completed"⟩

/-- What is told at the end of a run that was given some arguments. -/
def farewell (args : List String) (failure : Option Failure) : List Message :=
  if args.isEmpty || failure.isSome then [] else [completed]

/-- The transcript of a run from a session on, step by step. -/
def runFrom (parse : Parser) (s : Session) (args : List String) : Transcript :=
  let step := s.step parse args
  let printed := prompt parse args ++ step.printed
  match _h : step.progress with
  | .goesOn next left => (runFrom parse next left).after printed step.log
  | .ended failure => ⟨printed, step.log, failure⟩
termination_by args.length
decreasing_by exact length_lt_of_step _h

/-- The transcript of a run of the program with a parser for its arguments. -/
def runWith (parse : Parser) (args : List String) (input : Input) : Transcript :=
  let t := runFrom parse (start input) (Slice.given args)
  ⟨t.printed, t.log ++ farewell args t.failure, t.failure⟩

/-- The transcript of a run with the parser of this library. -/
def run (args : List String) (input : Input) : Transcript := runWith Options.parse args input

variable {parse : Parser} {s t : Session} {args left : List String} {slice : Slice} {f : Failure}

theorem runFrom_of_goesOn (h : (s.step parse args).progress = .goesOn t left) :
    s.runFrom parse args = (t.runFrom parse left).after
      (prompt parse args ++ (s.step parse args).printed) (s.step parse args).log := by
  rw [runFrom]
  split
  · next hgoesOn =>
    cases h.symm.trans hgoesOn
    rfl
  · next hended => cases h.symm.trans hended

theorem runFrom_of_ended {failure : Option Failure}
    (h : (s.step parse args).progress = .ended failure) :
    s.runFrom parse args
      = ⟨prompt parse args ++ (s.step parse args).printed, (s.step parse args).log, failure⟩ := by
  rw [runFrom]
  split
  · next hgoesOn => cases h.symm.trans hgoesOn
  · next hended =>
    cases h.symm.trans hended
    rfl

/-- A slice whose command succeeds is followed by the run of what is left. -/
theorem runFrom_of_ok (h : Slice.next? args = some (slice, left))
    (hresult : (s.runSlice parse slice).result = .ok t) :
    s.runFrom parse args = (t.runFrom parse left).after
      (slice.prompt parse ++ (s.runSlice parse slice).printed) (s.runSlice parse slice).log := by
  have hprogress : (s.step parse args).progress = .goesOn t left := by
    rw [step_of_next? h, Outcome.progress, hresult]
  rw [runFrom_of_goesOn hprogress, step_of_next? h, prompt_of_next? h]

/-- A slice after which the run does not go on ends it. -/
theorem runFrom_of_error (h : Slice.next? args = some (slice, left))
    (hresult : (s.runSlice parse slice).result = .error f) :
    s.runFrom parse args = ⟨slice.prompt parse ++ (s.runSlice parse slice).printed,
      (s.runSlice parse slice).log, some f⟩ := by
  have hprogress : (s.step parse args).progress = .ended (some f) := by
    rw [step_of_next? h, Outcome.progress, hresult]
  rw [runFrom_of_ended hprogress, step_of_next? h, prompt_of_next? h]

/-- Without a slice in front the run ends, and fails if there is an argument. -/
theorem runFrom_of_none (h : Slice.next? args = none) :
    s.runFrom parse args
      = ⟨"", [], args.head?.map fun word => .error (.unknownCommand word)⟩ := by
  rw [runFrom_of_ended (congrArg Step.progress (step_of_none h)), step_of_none h, prompt_of_none h]
  rfl

theorem runFrom_nil : s.runFrom parse [] = ⟨"", [], none⟩ := runFrom_of_none rfl

end Session
end TwoLevel
