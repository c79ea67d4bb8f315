import LineBasic.Console.Basic
import LineBasic.Text.Lines

/-!
# Transcripts

A console that reads prepared lines and keeps what is written. Only reading past the last line
fails. Traces are kept apart from the output.

This is the `Transcript` of the language specification, section 10.1.
-/

namespace LineBasic

/-- Prepared input, and all that was written. -/
structure Transcript where
  input : List String := []
  output : String := ""
  traces : Array String := #[]
  deriving DecidableEq, Repr

namespace Transcript

/-- The lines of the output. -/
def lines (t : Transcript) : List String :=
  Text.lines t.output

/-- Adds a text to the output. -/
def append (t : Transcript) (text : String) : Transcript :=
  { t with output := t.output ++ text }

instance : Console Transcript where
  write text t := ⟨.ok (), t.append text, false⟩
  readLine
    | ⟨line :: input, output, traces⟩ => ⟨.ok line, ⟨input, output, traces⟩, false⟩
    | t => ⟨.error .endOfInput, t, false⟩
  trace text t := ⟨.ok (), { t with traces := t.traces.push text }, false⟩

end Transcript

end LineBasic
