import LineBasic.Number.Shortest

/-!
# How a number is written

A number is written with its shortest digits. Small and large numbers take an exponent; what the
others look like is fixed by one `Layout`.
-/

namespace LineBasic.Number

/-- The choices that a number format makes. -/
structure Layout where
  /-- The least power of ten of a leading digit that is written without an exponent. -/
  least : Int
  /-- The first power of ten of a leading digit that is again written with one. -/
  limit : Int
  /-- The least number of digits of an exponent. -/
  exponentWidth : Nat
  /-- What is written for a zero of either sign. -/
  zero : String
  /-- What is written for what is not a number. -/
  notANumber : String
  /-- What is written for the infinite number above all others. -/
  infinite : String
  /-- What is written for the infinite number below all others. -/
  negativeInfinite : String

/-- Numbers from `0.0001` up to a million are written without an exponent, an exponent has a sign
and at least two digits, and a zero has no sign. -/
def Layout.basic : Layout where
  least := -4
  limit := 6
  exponentWidth := 2
  zero := "0"
  notANumber := "NaN"
  infinite := "+Inf"
  negativeInfinite := "-Inf"

/-- Zeros in front of digits, up to the given width. -/
def padDigits (width : Nat) (ds : List Char) : List Char :=
  List.replicate (width - ds.length) '0' ++ ds

/-- Digits without an exponent, the first one standing for `10 ^ power`. -/
def positional (ds : List Char) (power : Int) : List Char :=
  if power < 0 then '0' :: '.' :: (List.replicate (-power - 1).toNat '0' ++ ds)
  else
    let whole := power.toNat + 1
    if ds.length ≤ whole then ds ++ List.replicate (whole - ds.length) '0'
    else ds.take whole ++ '.' :: ds.drop whole

/-- Digits with an exponent, the first one standing for `10 ^ power`. -/
def scientific (layout : Layout) (ds : List Char) (power : Int) : List Char :=
  let sign := if power < 0 then '-' else '+'
  positional ds 0 ++ 'e' :: sign :: padDigits layout.exponentWidth (Nat.toDigits 10 power.natAbs)

/-- Digits without the zeros at their end. -/
def dropZeros (ds : List Char) : List Char :=
  (ds.reverse.dropWhile (· == '0')).reverse

/-- The text of a positive decimal. -/
def Decimal.layOut (d : Decimal) (layout : Layout) : List Char :=
  let ds := Nat.toDigits 10 d.digits
  let power := d.exponent + ds.length - 1
  let ds := dropZeros ds
  if layout.least ≤ power ∧ power < layout.limit then positional ds power
  else scientific layout ds power

/-- The text of a number. In the layout `Layout.basic` it is the interpreter's `format_number`. -/
def toText (layout : Layout) (x : Float) : String :=
  let b := magnitude x
  if b = 0 then layout.zero
  else if infinityMagnitude < b then layout.notANumber
  else if b = infinityMagnitude then
    if isNegative x then layout.negativeInfinite else layout.infinite
  else
    let text := (shortest b).layOut layout
    String.ofList (if isNegative x then '-' :: text else text)

end LineBasic.Number
