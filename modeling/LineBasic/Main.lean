import LineBasic.Runner

/-!
# The command line

`basic FILE` runs the program in a file on the standard streams. `--trace` writes each line before
it is executed, `--max-steps N` stops the program after so many statements, and `--seed N` fixes the
random numbers.

Each step is computed on a `Terminal` and its output passed on. A step that waits for input is
computed once more when a line has come; it writes what it wrote before and then goes on, so what
was passed on already is left out.

The options are those of section 11.3 of the language specification.
-/

namespace LineBasic.CommandLine

/-- What the command line asks for. The interpreter's `Args`. -/
structure Request where
  file : Option String := none
  settings : Settings := {}
  seed : Option UInt64 := none

/-- A short help. -/
def usage : String :=
  "usage: basic [--trace] [--max-steps N] [--seed N] FILE"

/-- Reads the arguments of the command line. -/
def parse : Request → List String → Except String Request
  | request, [] => .ok request
  | request, "--trace" :: rest => parse { request with settings.trace := true } rest
  | request, "--max-steps" :: n :: rest =>
    match n.toNat? with
    | some n => parse { request with settings.maxSteps := some n } rest
    | none => .error usage
  | request, "--seed" :: n :: rest =>
    match n.toNat? with
    | some n => parse { request with seed := some (.ofNat n) } rest
    | none => .error usage
  | request, file :: rest =>
    if request.file.isSome || file.startsWith "-" then .error usage
    else parse { request with file := some file } rest

/-- Why a file cannot be read. -/
def describe : IO.Error → String
  | .noFileOrDirectory .. => "No such file or directory (os error 2)"
  | .permissionDenied .. => "Permission denied (os error 13)"
  | e => toString e

/-- The bytes of a file, or why it cannot be read. -/
def readFile (name : String) : IO (Except String (List UInt8)) := do
  try
    let bytes ← IO.FS.readBinFile name
    return .ok bytes.data.toList
  catch e => return .error (describe e)

/-- The bytes of a line of input, none at the end. -/
partial def readLine (input : IO.FS.Stream) (line : Array UInt8) : IO (List UInt8) := do
  let bytes ← input.read 1
  match bytes.data[0]? with
  | none => return line.toList
  | some b =>
    if b == Terminal.lineFeed then return (line.push b).toList else readLine input (line.push b)

/-- Passes on what a terminal has been given to write, but for the characters passed on already. -/
def emit (t : Terminal) (output errors : Nat) : IO Unit := do
  (← IO.getStderr).putStr (String.ofList (t.errors.toList.drop errors))
  let out ← IO.getStdout
  out.putStr (String.ofList (t.output.toList.drop output))
  out.flush

/-- Runs a program to its end. The numbers count the characters of the next step that were passed on
already. -/
partial def drive (p : Program) (settings : Settings) (run : Run Terminal) (output errors : Nat) :
    IO UInt32 := do
  match p.step settings run with
  | .running next =>
    emit next.machine.console output errors
    let machine := { next.machine with console := next.machine.console.drain }
    drive p settings { next with machine } 0 0
  | .halted result last =>
    let terminal := last.machine.console
    if terminal.waiting then
      emit terminal output errors
      let line ← readLine (← IO.getStdin) #[]
      let machine := { run.machine with console := run.machine.console.feed line }
      drive p settings { run with machine } terminal.output.length terminal.errors.length
    else
      let (exit, terminal) := Runner.finish result terminal
      emit terminal output errors
      return exit

/-- Runs the program in a file. -/
def runFile (name : String) (request : Request) : IO UInt32 := do
  let content ← readFile name
  let seed ← match request.seed with
    | some seed => pure seed
    | none => (UInt64.ofNat ·) <$> IO.monoNanosNow
  match Runner.begin name content seed { closed := false } with
  | .error (exit, terminal) =>
    emit terminal 0 0
    return exit
  | .ok (p, run) => drive p request.settings run 0 0

end LineBasic.CommandLine

open LineBasic in
/-- Runs the program that the command line names. -/
def main (arguments : List String) : IO UInt32 := do
  match CommandLine.parse {} arguments with
  | .ok request =>
    match request.file with
    | some name => CommandLine.runFile name request
    | none =>
      IO.eprintln CommandLine.usage
      return 2
  | .error text =>
    IO.eprintln text
    return 2
