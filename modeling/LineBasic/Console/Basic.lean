import LineBasic.Error

/-!
# Consoles

A program writes texts to a console and reads lines from it, and a run writes traces. Every call may
fail, and during every call the break key may be pressed. A console that knows only how to write and
to read writes a line as its text and then a line feed, and a trace as a line.

This is the `Console` of section 10.2 of the language specification, with its `write`, `write_line`,
`read_line` and `trace`.
-/

namespace LineBasic

/-- Why a console call failed. -/
inductive DeviceFault where
  | endOfInput
  | failure (text : String)
  deriving DecidableEq, Repr

/-- The error that a program sees. -/
def DeviceFault.toError : DeviceFault → Error
  | .endOfInput => { code := .inputPastEnd }
  | .failure text => .because .device text

/-- What came of a console call. -/
structure Reply (κ α : Type) where
  result : Except DeviceFault α
  console : κ
  /-- Whether the break key was pressed during the call. -/
  interrupt : Bool := false

/-- Calls the console again, unless it failed. -/
def Reply.andThen {κ α β : Type} (r : Reply κ α) (f : α → κ → Reply κ β) : Reply κ β :=
  match r with
  | ⟨.ok a, console, interrupt⟩ =>
    let s := f a console
    { s with interrupt := interrupt || s.interrupt }
  | ⟨.error e, console, interrupt⟩ => ⟨.error e, console, interrupt⟩

/-- The consoles whose state is of type `κ`. -/
class Console (κ : Type) where
  /-- Writes a text. -/
  write : String → κ → Reply κ Unit
  /-- Reads a line, without its terminator. -/
  readLine : κ → Reply κ String
  /-- Writes a text and ends the line. -/
  writeLine : String → κ → Reply κ Unit :=
    fun text console => (write text console).andThen fun _ console => write "\n" console
  /-- Writes a line of a trace. -/
  trace : String → κ → Reply κ Unit := writeLine

end LineBasic
