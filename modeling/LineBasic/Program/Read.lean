import LineBasic.Statement.Read
import LineBasic.Token.Scanner

/-!
# From source text to programs

A program is read line by line: a line number, a statement, and then the end of the statement.
Reading goes on up to the end of the source or to the first error. An illegal token anywhere in the
source is reported before anything else.

The grammar of a program is that of section 4.4 of the language specification.
-/

namespace LineBasic

namespace Program

/-- Puts the statement of a line under its number, which the token `t` spells, and goes on. The
statement must be over where it was read to. -/
def insertThen (p : Program) (t : Token) (n : Nat) (statement : Statement) (c : Cursor)
    (next : Program → Reading Program c) : Reading Program c :=
  if c.atEndOfStatement t.line then
    match insert n statement p with
    | (.error e, _) => .error (e.atPosition t.position)
    | (.ok _, q) => next q
  else .error (c.peek.syntaxError ("unexpected " ++ c.peek.describe))

/-- Reads a line into a program, from behind its number on, and goes on behind it. -/
def readLineThen (p : Program) (t : Token) (c : Cursor)
    (next : Program → (d : Cursor) → d.size ≤ c.size → Reading Program d) : Reading Program c :=
  match t.toLineNumber with
  | .error e => .error e
  | .ok n =>
    (Statement.read t.line n c).andThen fun statement d h =>
      p.insertThen t n statement d fun q => next q d h

/-- Reads the lines from a cursor on into a program. The parser's `program`. -/
def read (p : Program) (c : Cursor) : Reading Program c :=
  match _h : c.peek.kind with
  | .endOfInput => .ok p
  | .lineNumber | .number => Reading.behindNext <|
      p.readLineThen c.peek c.advance fun q d _ => read q d
  | _ => Reading.behindNext <| .error (c.peek.unexpected "line number")
termination_by c.size
decreasing_by
  all_goals
    have := Cursor.size_advance_lt (c := c) (by simp [_h])
    omega

/-- What comes of reading lines into a program, without where that stopped. -/
def readLines (p : Program) (c : Cursor) : Except Error Program :=
  (p.read c).result

/-- The program that a list of tokens makes. The parser's `parse`. -/
def ofTokens (tokens : List Token) : Except Error Program :=
  match tokens.find? (·.kind = .illegal) with
  | some t => .error t.illegalError
  | none => readLines .empty (.ofTokens tokens)

/-- The program that a source text makes. The `from_str` of the interpreter's `Program`. -/
def ofSource (source : String) : Except Error Program :=
  ofTokens (Token.scan source)

end Program

end LineBasic
