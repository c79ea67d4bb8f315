import LineBasic.Builtin
import LineBasic.Number.Decimal
import LineBasic.Statement.Basic
import LineBasic.Statement.Cursor

/-!
# From tokens to expressions

Expressions are read by climbing precedences. Comparisons bind least, then sums, products and
powers; signs bind tightest, so that `-2 ^ 2` is the square of minus two. Powers group to the right
and all else to the left. A sign minus is a subtraction from zero. A name is a call if arguments or
a built-in function stand behind it, and a variable otherwise.

The precedences are those of section 4.4 of the language specification.
-/

namespace LineBasic

namespace Expr

/-- How tightly an operator would have to bind to belong to the operand of a sign: none does. The
parser's `UNARY_PRECEDENCE`. -/
def signPrecedence : Nat := 50

/-- The expression that a name without arguments stands for. -/
def ofName (v : Ident) : Expr :=
  if Builtin.isName v.name then .call v [] else .var v

/-- The expression that a number token stands for. -/
def ofNumber? (t : Token) : Option Expr :=
  (Number.ofText? t.text.toList).map .number

mutual

/-- Reads an expression whose operators bind at least as tightly as `least`. The `parse` inside the
parser's `expression`. -/
def readAt (least : Nat) (c : Cursor) : Reading Expr c :=
  (readOperand c).andThen fun left d _ => readMore least left d
termination_by 3 * c.size + 2

/-- Reads on behind an expression, as long as operators follow that bind at least as tightly as
`least`. The loop of that `parse`. -/
def readMore (least : Nat) (left : Expr) (c : Cursor) : Reading Expr c :=
  match _h : c.peek.kind with
  | .operator op =>
    if op.precedence < least then .ok left
    else
      Reading.behindNext <|
        (readAt op.rightPrecedence c.advance).andThen fun right d _ =>
          readMore least (.binary op left right) d
  | _ => .ok left
termination_by 3 * c.size + 1
decreasing_by
  all_goals
    have := Cursor.size_advance_lt (c := c) (by simp [_h])
    omega

/-- Reads an expression without an operator outside parentheses, signs apart. The next token is
taken in any case. The `primary` inside the parser's `expression`. -/
def readOperand (c : Cursor) : Reading Expr c :=
  let t := c.peek
  match _h : c.peek.kind with
  | .operator .subtract =>
    Reading.behindNext <| (readAt signPrecedence c.advance).map (.binary .subtract (.number 0))
  | .operator .add =>
    Reading.behindNext <| readAt signPrecedence c.advance
  | .leftParen =>
    Reading.behindNext <| (readAt 0 c.advance).andThen fun e d _ =>
      (d.expect .rightParen "')'").map fun _ => .paren e
  | .number | .lineNumber =>
    Reading.behindNext <| match ofNumber? t with
      | some e => .ok e
      | none => .error (t.syntaxError ("invalid number " ++ t.describe))
  | .string => Reading.behindNext <| .ok (.text t.text)
  | .name =>
    let v := Ident.ofText t.text
    Reading.behindNext <|
      if c.advance.peek.kind = .leftParen then
        Reading.behindNext <|
          if c.advance.advance.peek.kind = .rightParen then
            Reading.behindNext <| .ok (.call v [])
          else (readArguments c.advance.advance).map (.call v)
      else .ok (ofName v)
  | _ => Reading.behindNext <| .error (t.unexpected "expression")
termination_by 3 * c.size + 1
decreasing_by
  all_goals
    have := Cursor.size_advance_lt (c := c) (by simp [_h])
    have := c.advance.size_advance_le
    omega

/-- Reads expressions with commas between them up to the closing parenthesis. The parser's
`expression_list`. -/
def readArguments (c : Cursor) : Reading (List Expr) c :=
  (readAt 0 c).andThen fun e d _ =>
    match _h : d.peek.kind with
    | .rightParen => Reading.behindNext <| .ok [e]
    | .comma => Reading.behindNext <| (readArguments d.advance).map (e :: ·)
    | _ => Reading.behindNext <| .error (d.peek.unexpected "',' or ')'")
termination_by 3 * c.size + 3
decreasing_by
  · omega
  · have := Cursor.size_advance_lt (c := d) (by simp [_h])
    omega

end

/-- Reads an expression. -/
def read (c : Cursor) : Reading Expr c :=
  readAt 0 c

end Expr

end LineBasic
