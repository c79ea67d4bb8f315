import LineBasic.Token.Basic

/-!
# Reading along a list of tokens

A `Cursor` is what is left of a list of tokens. Past the last one, and at an end token inside the
list, it stands still and shows the end of the source. A reader takes a cursor and gives a
`Reading`: what it read or why it could not, and where it stopped, which is never behind the place
where it began. Each recursion of a reader comes after a token that was taken, and so it ends.
-/

namespace LineBasic

/-- The rest of a list of tokens. The state of the parser, without the line that it is on. -/
structure Cursor where
  tokens : List Token
  /-- The place of the end of the source. -/
  stop : Position
  deriving DecidableEq, Repr

namespace Cursor

/-- A cursor at the start of a list of tokens. The end of the source counts as many columns behind
the last token as that has bytes. The parser's `new`. -/
def ofTokens (tokens : List Token) : Cursor where
  tokens := tokens
  stop := match tokens.getLast? with
    | some t => ⟨t.position.line, t.position.column + t.text.utf8ByteSize⟩
    | none => ⟨1, 1⟩

/-- How many tokens are left. -/
def size (c : Cursor) : Nat :=
  c.tokens.length

/-- The next token, which is the end token if none is left. -/
def peek (c : Cursor) : Token :=
  c.tokens.headD (.endAt c.stop)

/-- The cursor behind the next token, unless that is an end token. The parser's `next`. -/
def advance (c : Cursor) : Cursor :=
  if c.peek.isEnd then c else { c with tokens := c.tokens.tail }

theorem size_advance_le (c : Cursor) : c.advance.size ≤ c.size := by
  unfold advance
  split
  · exact Nat.le_refl _
  · simp [size]

/-- Behind a token there are fewer left. -/
theorem size_advance_lt {c : Cursor} (h : c.peek.kind ≠ .endOfInput) : c.advance.size < c.size := by
  obtain ⟨tokens, stop⟩ := c
  cases tokens with
  | nil => simp [peek, Token.endAt] at h
  | cons t ts =>
    have ht : t.isEnd = false := by simpa [Token.isEnd, peek] using h
    simp [advance, peek, ht, size]

/-- Whether the statement on the given physical line is over: at the end, at a line number, and on
another line. The parser's `at_end_of_statement`. -/
def atEndOfStatement (c : Cursor) (line : Nat) : Bool :=
  match c.peek.kind with
  | .endOfInput | .lineNumber => true
  | _ => c.peek.line != line

end Cursor

/-- What came of reading from a cursor on. -/
structure Reading (α : Type) (c : Cursor) where
  result : Except Error α
  /-- Where the reader stopped. -/
  rest : Cursor
  size_le : rest.size ≤ c.size

namespace Reading

variable {α β : Type} {c : Cursor}

/-- Reads nothing. -/
def ok (a : α) : Reading α c :=
  ⟨.ok a, c, Nat.le_refl _⟩

/-- Fails and reads nothing. -/
def error (e : Error) : Reading α c :=
  ⟨.error e, c, Nat.le_refl _⟩

/-- Takes the next token before reading on. -/
def behindNext (r : Reading α c.advance) : Reading α c :=
  ⟨r.result, r.rest, Nat.le_trans r.size_le c.size_advance_le⟩

/-- Reads on from where a reader stopped, unless it failed. -/
def andThen (r : Reading α c) (f : α → (d : Cursor) → d.size ≤ c.size → Reading β d) :
    Reading β c :=
  match r.result with
  | .ok a =>
    let s := f a r.rest r.size_le
    ⟨s.result, s.rest, Nat.le_trans s.size_le r.size_le⟩
  | .error e => ⟨.error e, r.rest, r.size_le⟩

/-- Changes what was read. -/
def map (f : α → β) (r : Reading α c) : Reading β c :=
  ⟨r.result.map f, r.rest, r.size_le⟩

end Reading

namespace Cursor

/-- Takes the next token, whatever it is, and fails unless it is of the given kind. -/
def expect (c : Cursor) (kind : Kind) (expected : String) : Reading Unit c :=
  Reading.behindNext <|
    if c.peek.kind = kind then .ok () else .error (c.peek.unexpected expected)

/-- Takes the next token and fails unless it is the keyword. -/
def expectKeyword (c : Cursor) (k : Keyword) : Reading Unit c :=
  c.expect (.keyword k) k.text

/-- Takes the next token and fails unless it is the equals sign. -/
def expectEqual (c : Cursor) : Reading Unit c :=
  c.expect (.operator .equal) "'='"

end Cursor

end LineBasic
