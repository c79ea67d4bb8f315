import LineBasic.Environment.Generator
import LineBasic.Environment.Stack
import LineBasic.Statement.Basic

/-!
# Environments

An environment is all that a program can change apart from its console: variables, open loops, the
random number generator, and where execution goes next. A statement that moves execution leaves a
transfer behind, which is taken up after the statement.

These are the `Environment` and the loop frames of section 3 of the language specification, with the
`Transfer` of section 10.2.
-/

namespace LineBasic

/-- An open loop. -/
structure Frame where
  /-- The loop variable. -/
  counter : Ident
  /-- The value that the variable was last given. -/
  current : Float
  /-- The value that ends the loop once it is passed. -/
  limit : Float
  /-- What is added on each turn. -/
  step : Float
  /-- The number of the program line that opened the loop. -/
  line : Nat
  deriving DecidableEq, Repr

/-- Whether a loop has passed its limit. The interpreter's `is_finished`. -/
def Frame.isFinished (f : Frame) : Bool :=
  if f.step > 0 then f.current > f.limit else f.current < f.limit

/-- How execution leaves a statement: on to the next line, to another line, or back into a loop. -/
inductive Transfer where
  | none
  | jump
  | loop
  deriving DecidableEq, Repr

/-- What a program can change apart from its console. -/
structure Environment where
  store : Store
  /-- The line number that was last set or moved to. -/
  counter : Nat
  frames : Stack Frame
  seed : UInt64
  generator : Generator
  transfer : Transfer
  /-- Whether the program has ended. -/
  ended : Bool

namespace Environment

/-- A fresh environment. The interpreter's `with_seed`. -/
def ofSeed (seed : UInt64) : Environment where
  store := .empty
  counter := 0
  frames := .empty
  seed := seed
  generator := .ofSeed seed
  transfer := .none
  ended := false

/-- The value of a variable, whatever the case of its name. -/
def get (env : Environment) (name : String) : Value :=
  env.store.fetch name.toUpper

/-- Gives a variable a value, whatever the case of its name. -/
def set (name : String) (value : Value) : Action Environment Unit :=
  fun ⟨store, counter, frames, seed, generator, transfer, ended⟩ =>
    let (result, store) := Store.store name.toUpper value store
    (result, ⟨store, counter, frames, seed, generator, transfer, ended⟩)

/-- What is said when there is no room for another open loop. -/
def loopOverflow : String := "too many nested FOR loops"

/-- Opens a loop. The interpreter's `push_frame`. -/
def pushFrame (frame : Frame) : Action Environment Unit :=
  fun ⟨store, counter, frames, seed, generator, transfer, ended⟩ =>
    let (result, frames) := Stack.push loopOverflow frame frames
    (result, ⟨store, counter, frames, seed, generator, transfer, ended⟩)

/-- Changes the open loops. -/
def mapFrames (f : Stack Frame → Stack Frame) (env : Environment) : Environment :=
  { env with frames := f env.frames }

/-- Draws a random number. -/
def random (env : Environment) : Float × Environment :=
  let (x, generator) := env.generator.draw
  (x, { env with generator })

/-- Sets the line number. The interpreter's `set_program_counter`. -/
def setCounter (n : Nat) (env : Environment) : Environment :=
  { env with counter := n }

/-- Goes to a line. -/
def jump (n : Nat) (env : Environment) : Environment :=
  { env with counter := n, transfer := .jump }

/-- Goes back into the loop that was opened on a line. The interpreter's `loop_to`. -/
def loopBack (n : Nat) (env : Environment) : Environment :=
  { env with counter := n, transfer := .loop }

/-- Takes up the transfer that was left behind. The interpreter's `take_transfer`. -/
def takeTransfer (env : Environment) : Transfer × Environment :=
  (env.transfer, { env with transfer := .none })

/-- Ends the program. The interpreter's `end`. -/
def finish (env : Environment) : Environment :=
  { env with ended := true }

/-- Makes an environment ready for a run. Variables and open loops stay. -/
def begin (env : Environment) : Environment :=
  { env with ended := false, transfer := .none }

end Environment

end LineBasic
