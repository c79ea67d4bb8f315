import LineBasic.Console.Basic
import LineBasic.Text.Utf8

/-!
# Terminals

A console on standard streams. Output and traces go to separate streams. Input is bytes: a line is
read up to its line feed, must be well-formed UTF-8, and loses the line ends behind it. While the
input is still open a line may not have come yet; the terminal then only notes that it waits for
one.

This is the `Terminal` of the language specification, section 10.1.
-/

namespace LineBasic

/-- The state of the standard streams. -/
structure Terminal where
  /-- The bytes that have come and are not yet read. -/
  input : List UInt8 := []
  /-- Whether no more bytes will come. -/
  closed : Bool := true
  /-- Whether a line was to be read that has not come yet. -/
  waiting : Bool := false
  output : String := ""
  /-- What was written to the stream for errors. -/
  errors : String := ""
  deriving DecidableEq, Repr

namespace Terminal

/-- The byte that ends a line. -/
def lineFeed : UInt8 := 10

/-- A line without the line ends behind it. The interpreter's `trim_newline`. -/
def dropLineEnds (s : String) : String :=
  String.ofList (s.toList.reverse.dropWhile fun c => c == '\n' || c == '\r').reverse

/-- What bytes that are not UTF-8 are answered with. -/
def notUtf8 : String := "stream did not contain valid UTF-8"

/-- The bytes of the first line with its line feed, and the bytes after it. -/
def splitLine (bytes : List UInt8) : List UInt8 × List UInt8 :=
  let line := bytes.takeWhile (· != lineFeed)
  match bytes.dropWhile (· != lineFeed) with
  | feed :: rest => (line ++ [feed], rest)
  | [] => (line, [])

/-- Writes a text to the output. -/
def write (text : String) (t : Terminal) : Reply Terminal Unit :=
  ⟨.ok (), { t with output := t.output ++ text }, false⟩

/-- Reads a line from the input. -/
def readLine (t : Terminal) : Reply Terminal String :=
  if !t.closed && !t.input.contains lineFeed then
    ⟨.error .endOfInput, { t with waiting := true }, false⟩
  else if t.input.isEmpty then ⟨.error .endOfInput, t, false⟩
  else
    let (line, rest) := splitLine t.input
    let result := match Text.decode? line with
      | some s => .ok (dropLineEnds s)
      | none => .error (.failure notUtf8)
    ⟨result, { t with input := rest }, false⟩

/-- Writes a line to the stream for errors. -/
def trace (text : String) (t : Terminal) : Reply Terminal Unit :=
  ⟨.ok (), { t with errors := t.errors ++ text ++ "\n" }, false⟩

/-- Adds bytes that have come. No bytes mean that none will come any more. -/
def feed (bytes : List UInt8) (t : Terminal) : Terminal :=
  { t with input := t.input ++ bytes, closed := bytes.isEmpty, waiting := false }

/-- A terminal whose output streams have been passed on. -/
def drain (t : Terminal) : Terminal :=
  { t with output := "", errors := "" }

instance : Console Terminal where
  write := write
  readLine := readLine
  trace := trace

end Terminal

end LineBasic
