import LineBasic.Console.Basic
import LineBasic.Environment.Evaluate

/-!
# Executing statements

A machine is an environment with a console and a break flag, which the console may raise.
`Statement.execute` is the effect of one statement. What a statement did before it failed stays
done, but most statements do nothing before they have evaluated and checked all that they need.

Section 4.3 of the language specification says what each statement does.
-/

namespace LineBasic

/-- An environment with a console. -/
structure Machine (κ : Type) where
  environment : Environment
  console : κ
  /-- Whether the break key has been pressed. -/
  interrupt : Bool

namespace Machine

variable {κ α : Type}

/-- Does something with the environment. -/
def onEnvironment (x : Action Environment α) : Action (Machine κ) α :=
  fun ⟨environment, console, interrupt⟩ =>
    let (result, environment) := x environment
    (result, ⟨environment, console, interrupt⟩)

/-- Changes the environment. -/
def modify (f : Environment → Environment) : Action (Machine κ) Unit :=
  onEnvironment fun env => (.ok (), f env)

/-- Calls the console. -/
def onConsole (call : κ → Reply κ α) : Action (Machine κ) α :=
  fun ⟨environment, console, interrupt⟩ =>
    match call console with
    | ⟨.ok a, console, raised⟩ => (.ok a, ⟨environment, console, interrupt || raised⟩)
    | ⟨.error fault, console, raised⟩ =>
      (.error fault.toError, ⟨environment, console, interrupt || raised⟩)

/-- The value of an expression. -/
def evaluate (e : Expr) : Action (Machine κ) Value :=
  onEnvironment (Environment.evaluate e)

end Machine

namespace Environment

/-- Fails unless a variable can have this name. The interpreter's `check_name`. -/
def checkName (v : Ident) : Action Environment Unit :=
  if v.name = "" ∨ v.name = "$" then .fail { code := .invalidVariable } else pure ()

/-- Gives a variable a value. -/
def assign (v : Ident) (value : Value) : Action Environment Unit :=
  set v.name value

/-- Opens a loop: its variable gets the start value. A step of zero is refused. The end of the `For`
case of `execute`. -/
def openLoop (v : Ident) (start limit step : Float) (line : Nat) : Action Environment Unit :=
  if step == 0 then .fail { code := .stepZero }
  else do
    assign v (.number start)
    pushFrame ⟨v, start, limit, step, line⟩

/-- Gives the variable of the innermost loop its next value, given that loop. Past the limit the
loop is closed, and before it execution goes back. -/
def turn (frame : Frame) : Action Environment Unit :=
  fun env =>
    let frame := { frame with current := frame.current + frame.step }
    match assign frame.counter (.number frame.current) (env.mapFrames (·.setTop frame)) with
    | (.error e, env) => (.error e, env)
    | (.ok _, env) =>
      (.ok (), if frame.isFinished then env.mapFrames Stack.pop else env.loopBack frame.line)

/-- Ends a turn of the innermost loop, which must be that of the given variable if there is one. The
interpreter's `next`. -/
def nextTurn (counter : Option Ident) : Action Environment Unit :=
  fun env =>
    match env.frames.top? with
    | none => (.error { code := .nextWithoutFor }, env)
    | some frame =>
      match counter with
      | none => turn frame env
      | some v =>
        if v = frame.counter then turn frame env
        else
          (.error
            (.because .nextWithoutFor ("NEXT " ++ v.name ++ " without matching FOR " ++ v.name)),
            env)

end Environment

namespace Statement

open Machine Environment

variable {κ : Type} [Console κ]

/-- The prompt of a statement that gives none. -/
def defaultPrompt : String := "? "

/-- The value that an input line has for a variable. -/
def inputValue (v : Ident) (line : String) : Except Error Value :=
  if v.isText then .ok (.text line) else (Value.text line).toNumber.map .number

/-- Opens a loop, given its values. -/
def executeLoop (v : Ident) (line : Nat) : Value → Value → Value → Action (Machine κ) Unit
  | .number start, .number limit, .number step => onEnvironment (openLoop v start limit step line)
  | _, _, _ => .fail (.because .typeMismatch "FOR values must be numeric")

/-- The effect of a statement. The `execute` of the interpreter's `Statement`. -/
def execute : Statement → Action (Machine κ) Unit
  | .stop => modify finish
  | .loop v start limit step line => do
    let start ← Machine.evaluate start
    let limit ← Machine.evaluate limit
    let step ← Machine.evaluate step
    onEnvironment (checkName v)
    executeLoop v line start limit step
  | .goto n => modify (jump n)
  | .cond condition body => do
    match ← Machine.evaluate condition with
    | .number x => if x != 0 then execute body else pure ()
    | .text _ => .fail { code := .typeMismatch }
  | .input prompt v => do
    onEnvironment (checkName v)
    onConsole (Console.write (if prompt.isEmpty then defaultPrompt else prompt))
    let line ← onConsole Console.readLine
    let value ← .ofExcept (inputValue v line)
    onEnvironment (Environment.assign v value)
  | .assign v e => do
    onEnvironment (checkName v)
    let value ← Machine.evaluate e
    onEnvironment (Environment.assign v value)
  | .next v => onEnvironment (nextTurn v)
  | .print items => do
    let values ← onEnvironment (evaluateAll items)
    onConsole (Console.writeLine (" ".intercalate (values.map Value.toText)))
  | .remark _ => pure ()

end Statement

end LineBasic
