/-!
# Errors

An error has a code, which says what went wrong, and a text, which says it to a reader. An error
found in source text carries a position; an error met while a program runs carries the number of the
program line. `Error.text` is the cause alone and `Error.message` names the place as well.

These are the `Error`, `ErrorCode` and `Position` of the language specification, sections 7 and
11.1.
-/

namespace LineBasic

/-- A place in source text. Lines and columns count from one, columns in characters. -/
structure Position where
  line : Nat
  column : Nat
  deriving DecidableEq, Repr

/-- What went wrong. -/
inductive ErrorCode where
  | illegalCharacter
  | unterminatedString
  | syntaxError
  | invalidLineNumber
  | duplicateLine
  | typeMismatch
  | divisionByZero
  | cannotConvert
  | invalidVariable
  | undefinedLine
  | nextWithoutFor
  | stepZero
  | unknownFunction
  | argumentCount
  | illegalFunctionCall
  | inputPastEnd
  | device
  | interrupted
  | executionLimit
  | outOfMemory
  deriving DecidableEq, Repr

/-- The text of an error that gives no cause of its own. The interpreter's `default_text`. -/
def ErrorCode.defaultText : ErrorCode → String
  | .illegalCharacter => "illegal character"
  | .unterminatedString => "unterminated string"
  | .syntaxError => "syntax error"
  | .invalidLineNumber => "invalid line number"
  | .duplicateLine => "duplicate line number"
  | .typeMismatch => "type mismatch"
  | .divisionByZero => "division by zero"
  | .cannotConvert => "cannot convert"
  | .invalidVariable => "invalid variable name"
  | .undefinedLine => "undefined line"
  | .nextWithoutFor => "NEXT without FOR"
  | .stepZero => "step cannot be zero"
  | .unknownFunction => "unknown function"
  | .argumentCount => "wrong number of arguments"
  | .illegalFunctionCall => "illegal function call"
  | .inputPastEnd => "input past end"
  | .device => "input/output error"
  | .interrupted => "break"
  | .executionLimit => "execution limit exceeded"
  | .outOfMemory => "out of memory"

/-- An error, with the place where it was met if that is known. -/
structure Error where
  code : ErrorCode
  /-- The number of the program line that was running. -/
  line : Option Nat := none
  /-- The place in source text. -/
  position : Option Position := none
  /-- The cause in words; empty where the code says enough. -/
  detail : String := ""
  deriving DecidableEq, Repr

namespace Error

/-- An error with a cause in words. The interpreter's `new` and `message` in one. -/
def because (code : ErrorCode) (detail : String) : Error :=
  { code, detail }

/-- The cause, without the place. -/
def text (e : Error) : String :=
  if e.detail.isEmpty then e.code.defaultText else e.detail

/-- An error met in a program line. The interpreter's `in_line_number`. -/
def inLine (e : Error) (number : Nat) : Error :=
  { e with line := some number }

/-- An error met at a place in source text. The interpreter's `in_position`. -/
def atPosition (e : Error) (position : Position) : Error :=
  { e with position := some position }

/-- An error with another cause in words. The interpreter's `message`. -/
def withDetail (e : Error) (detail : String) : Error :=
  { e with detail }

/-- An error met while something larger was being done: that goes in front of the cause. The
interpreter's `context`. -/
def within (e : Error) (context : String) : Error :=
  { e with detail := context ++ ": " ++ e.text }

/-- The cause and the place, the program line before the place in source text. This is how the
interpreter displays an error. -/
def message (e : Error) : String :=
  match e.line, e.position with
  | some number, _ => "runtime error at line " ++ number.repr ++ ": " ++ e.text
  | none, some p => "line " ++ p.line.repr ++ ", column " ++ p.column.repr ++ ": " ++ e.text
  | none, none => e.text

@[simp] theorem code_inLine (e : Error) (number : Nat) : (e.inLine number).code = e.code := rfl

@[simp] theorem text_inLine (e : Error) (number : Nat) : (e.inLine number).text = e.text := rfl

@[simp] theorem code_atPosition (e : Error) (p : Position) : (e.atPosition p).code = e.code := rfl

@[simp] theorem text_atPosition (e : Error) (p : Position) : (e.atPosition p).text = e.text := rfl

@[simp] theorem code_within (e : Error) (context : String) : (e.within context).code = e.code := rfl

end Error

end LineBasic
