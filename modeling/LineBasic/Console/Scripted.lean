import LineBasic.Console.Basic

/-!
# Scripted consoles

A console that can only write and read, that counts its calls, and that fails and is interrupted at
calls chosen beforehand.
-/

namespace LineBasic

/-- Which calls fail or are interrupted, counted from one. -/
structure Script where
  failWrite : Option Nat := none
  failRead : Option Nat := none
  interruptWrite : Option Nat := none
  /-- How the chosen calls fail. -/
  fault : DeviceFault := .failure "device failure"
  deriving DecidableEq, Repr

/-- A console that follows a script. -/
structure Scripted where
  script : Script
  input : List String := []
  output : String := ""
  /-- How often it was written to, failed calls included. -/
  writes : Nat := 0
  /-- How often it was read from, failed calls included. -/
  reads : Nat := 0
  deriving DecidableEq, Repr

namespace Scripted

/-- Writes a text, unless this call is to fail. -/
def write (text : String) : Scripted → Reply Scripted Unit
  | ⟨script, input, output, writes, reads⟩ =>
    let call := writes + 1
    let interrupt := script.interruptWrite = some call
    if script.failWrite = some call then
      ⟨.error script.fault, ⟨script, input, output, call, reads⟩, interrupt⟩
    else ⟨.ok (), ⟨script, input, output ++ text, call, reads⟩, interrupt⟩

/-- Reads the next line, unless this call is to fail or there is none. -/
def readLine : Scripted → Reply Scripted String
  | ⟨script, input, output, writes, reads⟩ =>
    let call := reads + 1
    if script.failRead = some call then
      ⟨.error script.fault, ⟨script, input, output, writes, call⟩, false⟩
    else
      match input with
      | line :: input => ⟨.ok line, ⟨script, input, output, writes, call⟩, false⟩
      | [] => ⟨.error .endOfInput, ⟨script, [], output, writes, call⟩, false⟩

instance : Console Scripted where
  write := write
  readLine := readLine

end Scripted

end LineBasic
