/-!
# Numbers as 64-bit floating point

Every number of the language is a binary floating-point number of 64 bits. This module gives the
exact value behind the bits and the way back: `Dyadic.ofMagnitude` reads the bits of a number
without its sign as a whole number times a power of two, and `nearestMagnitude` finds the bits of
the number nearest to a quotient, a tie going to the even one. Both work on natural numbers, where
they can be reasoned about.

The bits of a number without its sign are called its *magnitude*. Magnitudes are ordered as the
numbers are, and all magnitudes below `infinityMagnitude` are finite.
-/

namespace LineBasic.Number

/-- The bit that holds the sign. -/
def signBit : Nat := 1 <<< 63

/-- The leading bit of a mantissa, above the bits that are stored. So many magnitudes share an
exponent. -/
def leadingBit : Nat := 1 <<< 52

/-- The magnitude of an infinite number. Finite numbers lie below it, and what is not a number
above. -/
def infinityMagnitude : Nat := 2047 * leadingBit

/-- The power of two that the least magnitude stands for. -/
def leastExponent : Int := -1074

/-- The bits of a number without its sign. -/
def magnitude (x : Float) : Nat :=
  x.toBits.toNat % signBit

/-- Whether the sign bit of a number is set. -/
def isNegative (x : Float) : Bool :=
  signBit ≤ x.toBits.toNat

/-- The number with the given sign and magnitude. -/
def ofMagnitude (negative : Bool) (magnitude : Nat) : Float :=
  Float.ofBits (UInt64.ofNat (if negative then signBit + magnitude else magnitude))

/-- A whole number times a power of two. -/
structure Dyadic where
  /-- The whole number. -/
  mantissa : Nat
  /-- The power of two. -/
  exponent : Int
  deriving DecidableEq, Repr

/-- The exact value of a finite magnitude. -/
def Dyadic.ofMagnitude (b : Nat) : Dyadic :=
  if b < leadingBit then ⟨b, leastExponent⟩
  else ⟨b % leadingBit + leadingBit, (b / leadingBit : Nat) - 1 + leastExponent⟩

/-- A quotient rounded to the nearest whole number, a tie going to the even one. -/
def roundDiv (num den : Nat) : Nat :=
  let whole := num / den
  let twice := 2 * (num % den)
  if twice < den then whole
  else if den < twice then whole + 1
  else whole + whole % 2

/-- The exponent `e` with `2 ^ e ≤ num / den < 2 ^ (e + 1)`, for a positive quotient. -/
def log2Div (num den : Nat) : Int :=
  let e : Int := (num.log2 : Int) - den.log2
  if den <<< e.toNat ≤ num <<< (-e).toNat then e else e - 1

/-- The magnitude of the number nearest to `num / den`, a tie going to the even one. A quotient
beyond the finite numbers gives the infinite magnitude. -/
def nearestMagnitude (num den : Nat) : Nat :=
  if num = 0 then 0
  else
    let exponent := max (log2Div num den - 52) leastExponent
    let mantissa := roundDiv (num <<< (-exponent).toNat) (den <<< exponent.toNat)
    min ((exponent - leastExponent).toNat * leadingBit + mantissa) infinityMagnitude

/-- The number nearest to a quotient. -/
def ofQuotient (num den : Nat) : Float :=
  ofMagnitude false (nearestMagnitude num den)

/-- The number nearest to a whole number. -/
def ofNat (n : Nat) : Float :=
  ofQuotient n 1

/-- The whole part of the value of a dyadic number. -/
def Dyadic.whole (d : Dyadic) : Nat :=
  d.mantissa <<< d.exponent.toNat >>> (-d.exponent).toNat

/-- A number with its fraction cut off. The sign stays, also that of a zero. -/
def truncate (x : Float) : Float :=
  let b := magnitude x
  if infinityMagnitude ≤ b then x
  else ofMagnitude (isNegative x) (nearestMagnitude (Dyadic.ofMagnitude b).whole 1)

/-- The order of two numbers; a number and what is not a number count as equal. -/
def compare (x y : Float) : Ordering :=
  if x < y then .lt else if y < x then .gt else .eq

end LineBasic.Number
