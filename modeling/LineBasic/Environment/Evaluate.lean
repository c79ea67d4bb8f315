import LineBasic.Environment.Basic
import LineBasic.Environment.Call

/-!
# Evaluating expressions

Operands and arguments are evaluated from left to right. An expression reads variables and draws
random numbers and does nothing else, so all it needs is a store and a generator. The error of an
operand of arithmetic and that of a parenthesis say so; comparisons and calls pass errors on as they
are.

This is `evaluate` of section 4.3 of the language specification.
-/

namespace LineBasic

namespace Expr

/-- Says that the left operand of an operator failed. -/
def inLeft (op : Operator) (x : Action Generator Value) : Action Generator Value :=
  if op.isComparison then x else x.within "error evaluating left operand"

/-- Says that the right operand of an operator failed. -/
def inRight (op : Operator) (x : Action Generator Value) : Action Generator Value :=
  if op.isComparison then x else x.within "error evaluating right operand"

mutual

/-- The value of an expression. -/
def evaluate (store : Store) : Expr → Action Generator Value
  | .number x => pure (.number x)
  | .text s => pure (.text s)
  | .var v => pure (store.fetch v.name.toUpper)
  | .call f arguments =>
    match Builtin.ofName? f.name with
    | some b => do
      let values ← evaluateAll store arguments
      b.call values
    | none => .fail (.because .unknownFunction ("unknown function: " ++ f.name))
  | .paren e => (evaluate store e).within "error evaluating parenthesized expression"
  | .binary op l r => do
    let a ← inLeft op (evaluate store l)
    let b ← inRight op (evaluate store r)
    .ofExcept (op.apply a b)

/-- The values of expressions, from the first on. -/
def evaluateAll (store : Store) : List Expr → Action Generator (List Value)
  | [] => pure []
  | e :: es => do
    let v ← evaluate store e
    let vs ← evaluateAll store es
    pure (v :: vs)

end

end Expr

namespace Environment

/-- Does something with the variables and the generator. -/
def withGenerator {α : Type} (x : Store → Action Generator α) : Action Environment α :=
  fun ⟨store, counter, frames, seed, generator, transfer, ended⟩ =>
    let (result, generator) := x store generator
    (result, ⟨store, counter, frames, seed, generator, transfer, ended⟩)

/-- The value of an expression. -/
def evaluate (e : Expr) : Action Environment Value :=
  withGenerator fun store => e.evaluate store

/-- The values of expressions. -/
def evaluateAll (es : List Expr) : Action Environment (List Value) :=
  withGenerator fun store => Expr.evaluateAll store es

/-- Calls a built-in function. -/
def call (f : Builtin) (arguments : List Value) : Action Environment Value :=
  withGenerator fun _ => f.call arguments

end Environment

end LineBasic
