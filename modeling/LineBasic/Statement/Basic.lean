import LineBasic.Ident
import LineBasic.Token.Basic

/-!
# Expressions and statements

The abstract form of the language. A program line holds one statement, and a conditional statement
holds another.

The forms are those of section 4.3 of the language specification, and the `END` and `REM` of section
10.3.
-/

namespace LineBasic

/-- An expression. The `Expression` of the specification. -/
inductive Expr where
  | number (x : Float)
  | text (s : String)
  | var (v : Ident)
  | call (f : Ident) (arguments : List Expr)
  | paren (e : Expr)
  | binary (op : Operator) (left right : Expr)
  deriving Repr, Inhabited

/-- A statement. -/
inductive Statement where
  /-- Ends the program. -/
  | stop
  /-- Opens a loop; `line` is the number of the program line that holds it. -/
  | loop (counter : Ident) (start limit step : Expr) (line : Nat)
  /-- Goes to a program line. -/
  | goto (line : Nat)
  /-- Executes a statement if a condition holds. -/
  | cond (condition : Expr) (body : Statement)
  /-- Reads a line into a variable; an empty prompt asks for the usual one. -/
  | input (prompt : String) (target : Ident)
  /-- Stores a value in a variable. -/
  | assign (target : Ident) (value : Expr)
  /-- Closes a loop, the innermost one where no variable is named. -/
  | next (counter : Option Ident)
  /-- Writes values on one line. -/
  | print (items : List Expr)
  /-- Does nothing. -/
  | remark (text : String)
  deriving Repr, Inhabited

/-- Whether a statement opens a loop by itself. -/
def Statement.isLoop : Statement → Bool
  | .loop .. => true
  | _ => false

end LineBasic
