import LineBasic.Numbered.Basic
import LineBasic.Action
import LineBasic.Program.Read
import LineBasic.Text.Lines

/-!
# Listings

A listing keeps the source text of a program by line number. Entering a line replaces the one with
the same number, and a line number by itself deletes it.
-/

namespace LineBasic

/-- Source lines under their line numbers. -/
structure Listing where
  lines : Numbered String
  deriving Inhabited

namespace Listing

/-- The listing without lines. -/
def empty : Listing :=
  ⟨.empty⟩

/-- How many lines a listing has. -/
def size (l : Listing) : Nat :=
  l.lines.size

/-- The text under a line number. -/
def get? (l : Listing) (n : Nat) : Option String :=
  l.lines.get? n

/-- Deletes the line with this number. -/
def remove (l : Listing) (n : Nat) : Listing :=
  ⟨l.lines.erase n⟩

/-- Enters a line. Blanks around it do not count, and a blank line changes nothing. The listing's
`load_str`. -/
def enter (l : Listing) (line : String) : Except Error Listing :=
  let text := Text.trimStart (Text.trimEnd line.toList)
  let digits := text.takeWhile Char.isDigit
  let rest := text.dropWhile Char.isDigit
  if text.isEmpty then .ok l
  else if digits.isEmpty then
    .error (.because .syntaxError ("expected line number: " ++ String.ofList text))
  else
    match lineNumberOf? (String.ofList digits) with
    | none => .error (.because .invalidLineNumber ("invalid line number " ++ String.ofList digits))
    | some n =>
      if (Text.trim rest).isEmpty then .ok (l.remove n)
      else .ok ⟨l.lines.put n (String.ofList text)⟩

/-- Enters lines one after the other, the first of them being line `index` of a text. The lines
before one that fails stay entered. -/
def enterAll (index : Nat) : List String → Action Listing Unit
  | [], l => (.ok (), l)
  | line :: lines, l =>
    match l.enter line with
    | .ok l => enterAll (index + 1) lines l
    | .error e => (.error (e.within ("line " ++ index.repr)), l)

/-- Enters the lines of a text. -/
def load (source : String) : Action Listing Unit :=
  enterAll 1 (Text.lines source)

/-- The source text of a listing. -/
def source (l : Listing) : String :=
  Text.joinLines l.lines.items

/-- The program that a listing spells. -/
def program (l : Listing) : Except Error Program :=
  Program.ofSource l.source

end Listing

end LineBasic
