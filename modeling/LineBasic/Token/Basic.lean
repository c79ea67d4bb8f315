import LineBasic.Error

/-!
# Tokens

Source text is a sequence of tokens: numbers, strings, names, keywords, operators and punctuation,
each with its text as it was written and the place where it stands. A number that opens a line and
is followed by a keyword is a line number. The end of the source is a token too, and so is a
character that begins no other.

These are the tokens of section 3 of the language specification, with its `Kind`, `Word` and
`Operator`.
-/

namespace LineBasic

/-- The reserved words of the language. The `Word` of the specification. -/
inductive Keyword where
  | END | FOR | GOTO | IF | INPUT | LET | NEXT | PRINT | REM | STEP | THEN | TO
  deriving DecidableEq, Repr

namespace Keyword

/-- The spelling of a keyword. -/
def text : Keyword → String
  | END => "END"
  | FOR => "FOR"
  | GOTO => "GOTO"
  | IF => "IF"
  | INPUT => "INPUT"
  | LET => "LET"
  | NEXT => "NEXT"
  | PRINT => "PRINT"
  | REM => "REM"
  | STEP => "STEP"
  | THEN => "THEN"
  | TO => "TO"

/-- All keywords. The `ALL` of `Word`. -/
def all : List Keyword :=
  [END, FOR, GOTO, IF, INPUT, LET, NEXT, PRINT, REM, STEP, THEN, TO]

/-- The keyword that a text spells in upper or lower case. The `from_string` of `Word`. -/
def ofText? (s : String) : Option Keyword :=
  let upper := s.toUpper
  all.find? fun k => k.text == upper

end Keyword

/-- The operators between two expressions. -/
inductive Operator where
  | power | multiply | divide | add | subtract
  | equal | notEqual | less | lessEqual | greater | greaterEqual
  deriving DecidableEq, Repr

namespace Operator

/-- The spelling of an operator. -/
def text : Operator → String
  | power => "^"
  | multiply => "*"
  | divide => "/"
  | add => "+"
  | subtract => "-"
  | equal => "="
  | notEqual => "<>"
  | less => "<"
  | lessEqual => "<="
  | greater => ">"
  | greaterEqual => ">="

/-- How tightly an operator binds. The parser's `op_precedence`. -/
def precedence : Operator → Nat
  | equal | notEqual | less | lessEqual | greater | greaterEqual => 10
  | add | subtract => 20
  | multiply | divide => 30
  | power => 40

/-- How tightly an operator has to bind to belong to the right operand of this one. Only powers
group to the right. The parser's `parse` calls itself with this number. -/
def rightPrecedence : Operator → Nat
  | power => 40
  | op => op.precedence + 1

/-- Whether an operator compares its operands. -/
def isComparison : Operator → Bool
  | equal | notEqual | less | lessEqual | greater | greaterEqual => true
  | _ => false

end Operator

/-- What a token is. -/
inductive Kind where
  | endOfInput
  | illegal
  | lineNumber
  | number
  | string
  | name
  | keyword (k : Keyword)
  | operator (op : Operator)
  | leftParen
  | rightParen
  | comma
  | semicolon
  deriving DecidableEq, Repr

/-- A token of source text. -/
structure Token where
  kind : Kind
  /-- The text of the token; of a string, the text between the quotes. -/
  text : String
  /-- The place of the first character. -/
  position : Position
  deriving DecidableEq, Repr

namespace Token

/-- The text of the illegal token that a string without a closing quote gives. The lexer's
`UNTERMINATED_STRING`. -/
def unterminated : String := "unterminated string"

/-- The token at the end of the source. -/
def endAt (position : Position) : Token :=
  ⟨.endOfInput, "", position⟩

/-- The physical line on which a token begins. -/
def line (t : Token) : Nat :=
  t.position.line

/-- Whether a token is the end of the source. The lexer's `is_eof`. -/
def isEnd (t : Token) : Bool :=
  t.kind = .endOfInput

/-- How a token is named in an error. This is how the interpreter displays a token. -/
def describe (t : Token) : String :=
  match t.kind with
  | .endOfInput => "end of input"
  | .string => "\"" ++ t.text ++ "\""
  | _ => t.text

/-- The error that an illegal token stands for. The lexer's `illegal_error`. -/
def illegalError (t : Token) : Error :=
  if t.text = unterminated then Error.atPosition { code := .unterminatedString } t.position
  else
    (Error.because .illegalCharacter ("illegal character '" ++ t.text ++ "'")).atPosition t.position

/-- A syntax error at a token. -/
def syntaxError (t : Token) (detail : String) : Error :=
  (Error.because .syntaxError detail).atPosition t.position

/-- The error of finding a token where something else belongs. -/
def unexpected (t : Token) (expected : String) : Error :=
  t.syntaxError ("expected " ++ expected ++ ", found " ++ t.describe)

end Token

end LineBasic
