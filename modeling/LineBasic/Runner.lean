import LineBasic.Console.Terminal
import LineBasic.Listing
import LineBasic.Run.Basic

/-!
# Running a file

The content of a file is loaded as a listing, and the program that it spells is run on a terminal.
An error ends up as one line in bold on the stream for errors, and makes the exit code one.

This is the file runner of section 11.4 of the language specification.
-/

namespace LineBasic

namespace Runner

/-- The listing that the content of a file spells. -/
def loadListing (source : String) : Except Error Listing :=
  match Listing.load source .empty with
  | (.ok _, listing) => .ok listing
  | (.error e, _) => .error e

/-- The program in a file, given its name, and its bytes or why they cannot be read. The file
runner's `load`, and then the listing's `program`. -/
def loadFile (name : String) (content : Except String (List UInt8)) : Except Error Program := do
  let bytes ← content.mapError fun text => (Error.because .device text).within name
  match Text.decode? bytes with
  | none => .error ((Error.because .device Terminal.notUtf8).within name)
  | some source => (← loadListing source).program

/-- A text in bold. -/
def bold (s : String) : String :=
  "\x1b[1m" ++ s ++ "\x1b[0m"

/-- Writes an error to the stream for errors. -/
def report (e : Error) (t : Terminal) : Terminal :=
  { t with errors := t.errors ++ bold e.message ++ "\n" }

/-- The terminal and the exit code after a run with the given result. -/
def finish : Except Error Unit → Terminal → UInt32 × Terminal
  | .ok _, t => (0, t)
  | .error e, t => (1, report e t)

/-- Loads a file and begins to run it, or comes to an end at once. The file runner's `run_file`, up
to the first statement. -/
def begin (name : String) (content : Except String (List UInt8)) (seed : UInt64)
    (terminal : Terminal) : Except (UInt32 × Terminal) (Program × Run Terminal) :=
  match loadFile name content with
  | .error e => .error (finish (.error e) terminal)
  | .ok p => .ok (p, Program.start (.ofSeed seed) terminal false)

end Runner

end LineBasic
