import LineBasic.Statement.Basic
import LineBasic.Value

/-!
# Statements on one line

A statement is rendered on one line for traces. An expression is written out if it is a number, a
text or a variable, or one operator, one pair of parentheses or one call around those; a deeper one
is left out and shows as dots.

Section 4.5 of the language specification asks for the dots.
-/

namespace LineBasic

namespace Expr

/-- What an expression that is left out shows as. The interpreter's `ELLIPSIS`. -/
def ellipsis : String := "..."

/-- The text of a number, text or variable. The interpreter's `atom`. -/
def renderAtom? : Expr → Option String
  | .number x => some (Value.number x).toText
  | .text s => some ("\"" ++ s ++ "\"")
  | .var v => some v.name
  | _ => none

/-- An expression on one line, if it is not too deep. -/
def render? : Expr → Option String
  | .call f [] => some f.name
  | .call f (e :: es) => do
    let items ← (e :: es).mapM renderAtom?
    some (f.name ++ "(" ++ ", ".intercalate items ++ ")")
  | .paren e => do
    let s ← e.renderAtom?
    some ("(" ++ s ++ ")")
  | .binary op l r => do
    let s ← l.renderAtom?
    let t ← r.renderAtom?
    some (s ++ " " ++ op.text ++ " " ++ t)
  | e => e.renderAtom?

/-- An expression on one line. -/
def render (e : Expr) : String :=
  e.render?.getD ellipsis

end Expr

/-- A statement on one line. The interpreter's `render`. -/
def Statement.render : Statement → String
  | .stop => "END"
  | .loop v start limit step _ =>
    "FOR " ++ v.name ++ " = " ++ start.render ++ " TO " ++ limit.render ++ " STEP " ++ step.render
  | .goto n => "GOTO " ++ n.repr
  | .cond condition body => "IF " ++ condition.render ++ " THEN " ++ body.render
  | .input prompt v =>
    if prompt.isEmpty then "INPUT " ++ v.name else "INPUT \"" ++ prompt ++ "\"; " ++ v.name
  | .assign v e => v.name ++ " = " ++ e.render
  | .next none => "NEXT"
  | .next (some v) => "NEXT " ++ v.name
  | .print [] => "PRINT"
  | .print items => "PRINT " ++ ", ".intercalate (items.map Expr.render)
  | .remark text => if text.isEmpty then "REM" else "REM " ++ text

end LineBasic
