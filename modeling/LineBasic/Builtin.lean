/-!
# Built-in functions

The functions of the language, with their names and what they take. `Builtin.ofName?` looks a name
up without regard to case.

This is the function registry of sections 4.3 and 10.3 of the language specification.
-/

namespace LineBasic

/-- What a function takes in one place. The function registry's `Param`. -/
inductive Parameter where
  | number
  | text
  deriving DecidableEq, Repr

/-- The built-in functions. The entries of the function registry, `FUNCTIONS`. -/
inductive Builtin where
  | abs | cos | int | len | mid | rnd | sin | sqr | str | val
  deriving DecidableEq, Repr

namespace Builtin

/-- The name of a function. -/
def name : Builtin → String
  | abs => "ABS"
  | cos => "COS"
  | int => "INT"
  | len => "LEN"
  | mid => "MID$"
  | rnd => "RND"
  | sin => "SIN"
  | sqr => "SQR"
  | str => "STR$"
  | val => "VAL"

/-- What a function takes. -/
def parameters : Builtin → List Parameter
  | abs | cos | int | sin | sqr | str => [.number]
  | len | val => [.text]
  | mid => [.text, .number, .number]
  | rnd => []

/-- How many values a function takes. -/
def arity (f : Builtin) : Nat :=
  f.parameters.length

/-- All built-in functions. -/
def all : List Builtin :=
  [abs, cos, int, len, mid, rnd, sin, sqr, str, val]

/-- The function of a name in upper or lower case. The function registry's `lookup`. -/
def ofName? (s : String) : Option Builtin :=
  let upper := s.toUpper
  all.find? fun f => f.name == upper

/-- Whether a function has this name. The function registry's `is_builtin`. -/
def isName (s : String) : Bool :=
  (ofName? s).isSome

end Builtin

end LineBasic
