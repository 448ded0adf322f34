/-
# The program

The command line takes the steps of a run (`Session.step`).  It reads the input only when a step
asks for a line, prints the texts as they come, and writes messages and errors to the error
stream.  The environment variable `LOGIMIN_LOG` chooses the least grave level of the messages.
-/
import TwoLevel.Session

namespace TwoLevel

/-- The bytes of the next line of a stream, with the line break that ends it. -/
partial def readLine (stream : IO.FS.Stream) (line : ByteArray) : IO ByteArray := do
  let byte ← stream.read 1
  if byte.isEmpty then return line
  if byte[0]! = 10 then return line ++ byte
  readLine stream (line ++ byte)

/-- Messages that pass the threshold, one on each line. -/
def writeLog (threshold : Threshold) (messages : List Message) : IO Unit := do
  for m in messages do
    if threshold.passes m then IO.eprintln m.line

/-- Print a text at once. -/
def writeText (text : String) : IO Unit := do
  IO.print text
  (← IO.getStdout).flush

/-- Report the failure of a step whose arguments begin with a word. -/
def writeFailure (word : String) : Failure → IO Unit
  | .usage => IO.eprintln ("error: the arguments of '" ++ word ++ "' are not accepted")
  | .answered => pure ()
  | .error e => IO.eprintln e.line

/-- Run a session on, step by step.  A step that reads a line is given this line as its input. -/
def runAll (threshold : Threshold) (parse : Parser) (s : Session) (args : List String) :
    IO (Option Failure) := do
  writeText (Session.prompt parse args)
  let line ← if Session.readsLine parse args then readLine (← IO.getStdin) .empty else pure .empty
  let step := { s with input := line.toList }.step parse args
  writeLog threshold step.log
  writeText step.printed
  match _h : step.progress with
  | .goesOn next left => runAll threshold parse next left
  | .ended failure =>
    failure.forM (writeFailure (args.headD ""))
    return failure
termination_by args.length
decreasing_by exact Session.length_lt_of_step _h

/-- Run the program on its arguments; the result is its exit status. -/
def runProgram (args : List String) : IO UInt32 := do
  let threshold := Threshold.ofWord (← IO.getEnv "LOGIMIN_LOG")
  let failure ← runAll threshold Options.parse (Session.start []) (Slice.given args)
  writeLog threshold (Session.farewell args failure)
  return (exitStatus failure).toUInt32

end TwoLevel

/-- The entry of the program. -/
def main (args : List String) : IO UInt32 :=
  TwoLevel.runProgram args
