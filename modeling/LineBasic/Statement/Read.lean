import LineBasic.Program.Basic
import LineBasic.Statement.ReadExpr

/-!
# From tokens to statements

One reader for each form of statement. A statement stays on its physical line where it could end or
go on: behind `PRINT`, a separator, `NEXT` and `REM` it looks whether the line is over. Elsewhere it
takes what tokens come.

The grammar is that of sections 4.4 and 10.3 of the language specification.
-/

namespace LineBasic

/-- The line number that a text spells: digits, possibly behind a plus sign, within the bounds of
line numbers. The parser's `line_number`, without its error. -/
def lineNumberOf? (s : String) : Option Nat :=
  let ds := match s.toList with
    | '+' :: ds => ds
    | ds => ds
  if !ds.isEmpty && ds.all Char.isDigit && isLineNumber (Number.ofDigits ds) then
    some (Number.ofDigits ds)
  else none

namespace Token

/-- The line number that a token spells. The parser's `line_number`. -/
def toLineNumber (t : Token) : Except Error Nat :=
  match lineNumberOf? t.text with
  | some n => .ok n
  | none =>
    .error
      ((Error.because .invalidLineNumber ("invalid line number " ++ t.text)).atPosition t.position)

end Token

/-- Reads a name. The parser's `ident`. -/
def Ident.read (c : Cursor) : Reading Ident c :=
  Reading.behindNext <|
    if c.peek.kind = .name then .ok (.ofText c.peek.text)
    else .error (c.peek.unexpected "identifier")

namespace Statement

/-- Reads the expressions of `PRINT` up to the end of the statement, where a separator may stand. -/
def readItems (line : Nat) (c : Cursor) : Reading (List Expr) c :=
  (Expr.read c).andThen fun e d _ =>
    if _h : d.peek.kind = .comma ∨ d.peek.kind = .semicolon then
      Reading.behindNext <|
        if d.advance.atEndOfStatement line then .ok [e]
        else (readItems line d.advance).map (e :: ·)
    else .ok [e]
termination_by c.size
decreasing_by
  have := Cursor.size_advance_lt (c := d) (by rcases _h with h | h <;> simp [h])
  omega

/-- Reads what stands behind `PRINT`. The parser's `print`. -/
def readPrint (line : Nat) (c : Cursor) : Reading Statement c :=
  if c.atEndOfStatement line then .ok (.print [])
  else (readItems line c).map .print

/-- Reads an assignment from its variable on. The parser's `let`. -/
def readAssign (c : Cursor) : Reading Statement c :=
  (Ident.read c).andThen fun v d _ =>
    d.expectEqual.andThen fun _ d _ =>
      (Expr.read d).map (.assign v)

/-- Reads the separator behind a prompt. -/
def readPromptEnd (c : Cursor) : Reading Unit c :=
  Reading.behindNext <|
    if c.peek.kind = .semicolon ∨ c.peek.kind = .comma then .ok ()
    else .error (c.peek.syntaxError ("expected ';' after prompt, found " ++ c.peek.describe))

/-- Reads what stands behind `INPUT`. The parser's `input`. -/
def readInput (c : Cursor) : Reading Statement c :=
  if c.peek.kind = .string then
    Reading.behindNext <| (readPromptEnd c.advance).andThen fun _ d _ =>
      (Ident.read d).map (.input c.peek.text)
  else (Ident.read c).map (.input "")

/-- Reads the target of a jump. The parser's `goto`. -/
def readGoto (c : Cursor) : Reading Statement c :=
  Reading.behindNext <|
    if c.peek.kind = .number ∨ c.peek.kind = .lineNumber then
      match c.peek.toLineNumber with
      | .ok n => .ok (.goto n)
      | .error e => .error e
    else .error (c.peek.unexpected "line number")

/-- Reads the step of a loop, which is one where none is given. -/
def readStep (c : Cursor) : Reading Expr c :=
  if c.peek.kind = .keyword .STEP then Reading.behindNext <| Expr.read c.advance
  else .ok (.number 1)

/-- Reads what stands behind `FOR`. The parser's `for`. -/
def readLoop (number : Nat) (c : Cursor) : Reading Statement c :=
  (Ident.read c).andThen fun v d _ =>
    d.expectEqual.andThen fun _ d _ =>
      (Expr.read d).andThen fun start d _ =>
        (d.expectKeyword .TO).andThen fun _ d _ =>
          (Expr.read d).andThen fun limit d _ =>
            (readStep d).map fun step => .loop v start limit step number

/-- Reads what stands behind `NEXT`. The parser's `next_statement`. -/
def readNext (line : Nat) (c : Cursor) : Reading Statement c :=
  if c.peek.kind = .name ∧ !c.atEndOfStatement line then (Ident.read c).map fun v => .next (some v)
  else .ok (.next none)

/-- Reads what stands behind `REM`. The parser's `rem`. -/
def readRemark (line : Nat) (c : Cursor) : Reading Statement c :=
  if c.peek.kind = .string ∧ !c.atEndOfStatement line then
    Reading.behindNext <| .ok (.remark c.peek.text)
  else .ok (.remark "")

/-- Reads a statement on the physical line `line` of the program line `number`. The parser's
`statement`, with its `for_word` and `if`. -/
def read (line number : Nat) (c : Cursor) : Reading Statement c :=
  match _h : c.peek.kind with
  | .name => readAssign c
  | .keyword k =>
    Reading.behindNext <| match k with
      | .END => .ok .stop
      | .FOR => readLoop number c.advance
      | .GOTO => readGoto c.advance
      | .IF =>
        (Expr.read c.advance).andThen fun condition d _ =>
          (d.expectKeyword .THEN).andThen fun _ d _ =>
            if d.peek.kind = .number then (readGoto d).map (.cond condition)
            else (read line number d).map (.cond condition)
      | .INPUT => readInput c.advance
      | .LET => readAssign c.advance
      | .NEXT => readNext line c.advance
      | .PRINT => readPrint line c.advance
      | .REM => readRemark line c.advance
      | .STEP | .THEN | .TO => .error (c.peek.syntaxError ("expected statement, found " ++ k.text))
  | _ => .error (c.peek.unexpected "statement")
termination_by c.size
decreasing_by
  have := Cursor.size_advance_lt (c := c) (by simp [_h])
  omega

end Statement

end LineBasic
