import LineBasic.Error
import LineBasic.Number.Layout
import LineBasic.Text.Blank
import LineBasic.Token.Basic

/-!
# Values

A value is a number or a text. Sums join two texts and otherwise read a text as a number; all other
arithmetic takes numbers only. Comparing operators take two values of one type and give minus one
for true. `Value.compare` compares any two values: a number and a text as numbers if the text is
one, and as texts otherwise.

Section 4.2 of the language specification says what the operations do.
-/

namespace LineBasic

/-- A value of the language. The interpreter's `Val`. -/
inductive Value where
  | number (x : Float)
  | text (s : String)
  deriving DecidableEq, Repr, Inhabited

namespace Value

/-- Whether a value is a number. The interpreter's `is_number`. -/
def isNumber : Value → Bool
  | .number _ => true
  | .text _ => false

/-- Whether a value is a text. The interpreter's `is_string`. -/
def isText : Value → Bool
  | .number _ => false
  | .text _ => true

/-- A value as it is printed. The interpreter's `to_text`. -/
def toText : Value → String
  | .number x => Number.toText .basic x
  | .text s => s

/-- The error of reading a text that spells no number. -/
def cannotConvert (s : String) : Error :=
  .because .cannotConvert ("cannot convert string '" ++ s ++ "' to number")

/-- A value as a number. A text is read without the blanks around it. The interpreter's `to_number`.
-/
def toNumber : Value → Except Error Float
  | .number x => .ok x
  | .text s =>
    match Number.ofText? (Text.trim s.toList) with
    | some x => .ok x
    | none => .error (cannotConvert s)

/-- The sum of two values; two texts are joined. -/
def add : Value → Value → Except Error Value
  | .text s, .text t => .ok (.text (s ++ t))
  | a, b => do
    let x ← a.toNumber
    let y ← b.toNumber
    .ok (.number (x + y))

/-- Does something with two numbers, and fails if either value is a text. The interpreter's
`numbers`. -/
def onNumbers (verb : String) (f : Float → Float → Except Error Float) :
    Value → Value → Except Error Value
  | .number x, .number y => (f x y).map .number
  | _, _ => .error (.because .typeMismatch ("cannot " ++ verb ++ " strings"))

/-- The difference of two numbers. -/
def subtract : Value → Value → Except Error Value :=
  onNumbers "subtract" fun x y => .ok (x - y)

/-- The product of two numbers. -/
def multiply : Value → Value → Except Error Value :=
  onNumbers "multiply" fun x y => .ok (x * y)

/-- The quotient of two numbers; there is none by zero. -/
def divide : Value → Value → Except Error Value :=
  onNumbers "divide" fun x y => if y == 0 then .error { code := .divisionByZero } else .ok (x / y)

/-- A number raised to the power of another. -/
def power : Value → Value → Except Error Value :=
  onNumbers "exponentiate" fun x y => .ok (x.pow y)

/-- The order of two values of any type. -/
def compare : Value → Value → Ordering
  | .number x, .number y => Number.compare x y
  | .text s, .text t => Ord.compare s t
  | a, b =>
    match a.toNumber, b.toNumber with
    | .ok x, .ok y => Number.compare x y
    | _, _ => Ord.compare a.toText b.toText

/-- Whether two values of any type are equal in their order. -/
def equals (a b : Value) : Bool :=
  a.compare b == .eq

/-- A truth value of the language. The interpreter's `TRUE` and `FALSE`. -/
def ofBool (b : Bool) : Value :=
  .number (if b then -1 else 0)

/-- Compares two values of one type. The `compare` of the interpreter's `Operation`. -/
def test (numbers : Float → Float → Bool) (texts : String → String → Bool) :
    Value → Value → Except Error Value
  | .number x, .number y => .ok (ofBool (numbers x y))
  | .text s, .text t => .ok (ofBool (texts s t))
  | _, _ => .error { code := .typeMismatch }

end Value

/-- What an operator makes of two values. -/
def Operator.apply : Operator → Value → Value → Except Error Value
  | .power => Value.power
  | .multiply => Value.multiply
  | .divide => Value.divide
  | .add => Value.add
  | .subtract => Value.subtract
  | .equal => Value.test (· == ·) (· == ·)
  | .notEqual => Value.test (· != ·) (· != ·)
  | .less => Value.test (· < ·) (· < ·)
  | .lessEqual => Value.test (· ≤ ·) (· ≤ ·)
  | .greater => Value.test (· > ·) (· > ·)
  | .greaterEqual => Value.test (· ≥ ·) (· ≥ ·)

end LineBasic
