import LineBasic.Numbered.Basic
import LineBasic.Program.Basic
import LineBasic.Run.Machine
import LineBasic.Statement.Render

/-!
# Running programs

A run walks a program line by line in the order of the line numbers, one statement in each step.
Jumps and continuing loops move the walk elsewhere; a loop goes on behind the line that opened it.
Before each statement the run looks at the step limit, then at the break flag if it is asked to.
`Program.step` is one step and `Program.advance` a number of them.

This is the state machine of section 4.5 of the language specification, with the transfers of
section 10.2 and the break flag of section 10.3.
-/

namespace LineBasic

/-- How a program is run. The interpreter's `Runtime`. -/
structure Settings where
  /-- After how many statements a run is stopped. -/
  maxSteps : Option Nat := none
  /-- Whether each line is written to the trace before it is executed. -/
  trace : Bool := false
  /-- Whether the break flag stops a run. -/
  breakable : Bool := true
  deriving DecidableEq, Repr

/-- Whether a run may not execute another statement. -/
def Settings.isLimit (settings : Settings) (steps : Nat) : Bool :=
  settings.maxSteps.any (· ≤ steps)

/-- A run between two steps. -/
structure Run (κ : Type) where
  machine : Machine κ
  /-- The index of the next line. -/
  index : Nat
  /-- How many statements have been executed. -/
  steps : Nat

/-- What came of a step: the run goes on, or it has come to an end, with an error or without. -/
inductive Progress (κ : Type) where
  | running (run : Run κ)
  | halted (result : Except Error Unit) (run : Run κ)

namespace Program

variable {κ : Type} [Console κ]

/-- The beginning of a run. -/
def start (environment : Environment) (console : κ) (interrupt : Bool) : Run κ :=
  ⟨⟨environment.begin, console, interrupt⟩, 0, 0⟩

/-- The error of a run that is stopped by its limit. -/
def limitError (limit : Nat) : Error :=
  .because .executionLimit ("execution limit exceeded: maximum " ++ limit.repr ++ " steps reached")

/-- The error of going to a line that is not there. -/
def undefinedLine (n : Nat) : Error :=
  .because .undefinedLine ("line number " ++ n.repr ++ " does not exist")

/-- Writes a line to the trace, if that is asked for. -/
def traceLine (settings : Settings) (line : Entry Statement) : Action (Machine κ) Unit :=
  if settings.trace then
    Machine.onConsole
      (Console.trace ("Executing line " ++ line.number.repr ++ ": " ++ line.item.render))
  else pure ()

/-- Where a loop goes on that was opened on the line `target`, which has this index: behind the line
if that is the loop itself. -/
def loopTarget (p : Program) (target index : Nat) : Nat :=
  if (p.get? target).any (·.isLoop) then index + 1 else index

/-- Goes on after a statement on the line with the given number, as the statement left it. The end
of the loop in `execute`, from `is_ended` on. -/
def follow (p : Program) (number : Nat) (r : Run κ) : Progress κ :=
  match r with
  | ⟨⟨environment, console, interrupt⟩, index, steps⟩ =>
    if environment.ended then .halted (.ok ()) ⟨⟨environment, console, interrupt⟩, index, steps⟩
    else
      let (transfer, environment) := environment.takeTransfer
      let target := environment.counter
      let machine := ⟨environment, console, interrupt⟩
      match transfer with
      | .none => .running ⟨machine, index + 1, steps⟩
      | .jump =>
        match p.indexOf? target with
        | some i => .running ⟨machine, i, steps⟩
        | none => .halted (.error ((undefinedLine target).inLine number)) ⟨machine, index, steps⟩
      | .loop =>
        match p.indexOf? target with
        | some i => .running ⟨machine, p.loopTarget target i, steps⟩
        | none => .halted (.ok ()) ⟨machine, index, steps⟩

/-- Executes a line. -/
def executeLine (p : Program) (settings : Settings) (line : Entry Statement) (r : Run κ) :
    Progress κ :=
  match r with
  | ⟨⟨environment, console, interrupt⟩, index, steps⟩ =>
    let machine := ⟨environment.setCounter line.number, console, interrupt⟩
    match traceLine settings line machine with
    | (.error e, machine) => .halted (.error e) ⟨machine, index, steps⟩
    | (.ok _, machine) =>
      match line.item.execute machine with
      | (.error e, machine) => .halted (.error (e.inLine line.number)) ⟨machine, index, steps + 1⟩
      | (.ok _, machine) => p.follow line.number ⟨machine, index, steps + 1⟩

/-- One step of a run. A run past the last line has come to its end, as has one whose line has no
statement. One turn of the loop in the `execute` of the interpreter's `Runtime`. -/
def step (p : Program) (settings : Settings) (r : Run κ) : Progress κ :=
  match p.lineNumber? r.index with
  | none => .halted (.ok ()) r
  | some n =>
    if settings.isLimit r.steps then
      .halted (.error (limitError (settings.maxSteps.getD 0))) r
    else if settings.breakable && r.machine.interrupt then
      .halted (.error (Error.inLine { code := .interrupted } n))
        { r with machine := { r.machine with interrupt := false } }
    else
      match p.get? n with
      | none => .halted (.ok ()) r
      | some statement => p.executeLine settings ⟨n, statement⟩ r

/-- At most `count` steps of a run. -/
def advance (p : Program) (settings : Settings) : (count : Nat) → Progress κ → Progress κ
  | 0, progress => progress
  | count + 1, .running r => advance p settings count (p.step settings r)
  | _ + 1, .halted result r => .halted result r

end Program

end LineBasic
