import LineBasic.Number.Binary64

/-!
# Numbers as decimal text

A number is read from an optional sign and either a name (`inf`, `infinity` or `nan`, in any case)
or decimal digits with an optional point and an optional exponent, at least one digit standing on
one side of the point. The result is the number nearest to the decimal. An exponent takes up no more
digits once it has reached `exponentCeiling`.
-/

namespace LineBasic.Number

/-- A whole number times a power of ten. -/
structure Decimal where
  /-- The whole number. -/
  digits : Nat
  /-- The power of ten. -/
  exponent : Int
  deriving DecidableEq, Repr

/-- Exponents outside these bounds decide the nearest number by themselves: beyond the first every
positive decimal is infinite, below the second every decimal with one digit is zero. -/
def Decimal.exponentBounds : Int × Int := (400, -400)

/-- The magnitude of the number nearest to a decimal. -/
def Decimal.toMagnitude (d : Decimal) : Nat :=
  if d.digits = 0 then 0
  else if exponentBounds.1 < d.exponent then infinityMagnitude
  -- The digits are fewer than a third of the bits, and one.
  else if d.exponent + (d.digits.log2 / 3 + 1 : Nat) < exponentBounds.2 then 0
  else nearestMagnitude (d.digits * Nat.pow 10 d.exponent.toNat) (Nat.pow 10 (-d.exponent).toNat)

/-- How many digits are read one after the other. -/
def digitsAtOnce : Nat := 64

/-- The number that decimal digits spell. Many digits are read by halves, so that the long
multiplications are few. -/
def ofDigits (cs : List Char) : Nat :=
  if cs.length ≤ digitsAtOnce then Nat.ofDigitChars 10 cs 0
  else
    let half := cs.length / 2
    Nat.pow 10 (cs.length - half) * ofDigits (cs.take half) + ofDigits (cs.drop half)
termination_by cs.length
decreasing_by
  · simp only [List.length_take, digitsAtOnce] at *; omega
  · simp only [List.length_drop, digitsAtOnce] at *; omega

/-- Reading by halves gives what reading one digit after the other does. -/
theorem ofDigits_eq_ofDigitChars (cs : List Char) : ofDigits cs = Nat.ofDigitChars 10 cs 0 := by
  fun_induction ofDigits cs with
  | case1 => rfl
  | case2 cs _ half ihTake ihDrop =>
    have hlength : cs.length - half = (cs.drop half).length := (List.length_drop ..).symm
    rw [ihTake, ihDrop, hlength, Nat.pow_eq, ← Nat.ofDigitChars_eq_ofDigitChars_zero,
      ← Nat.ofDigitChars_append, List.take_append_drop]

/-- A sign at the start of a text, true for minus, and the text after it. -/
def splitSign : List Char → Bool × List Char
  | '-' :: cs => (true, cs)
  | '+' :: cs => (false, cs)
  | cs => (false, cs)

/-- The size from which on an exponent takes up no further digits. -/
def exponentCeiling : Nat := 65536

/-- The size of the exponent that decimal digits spell. Digits after the ceiling has been reached
are passed over, so that no exponent is larger than ten times the ceiling. -/
def exponentSize (cs : List Char) : Nat :=
  cs.foldl (fun n c => if n < exponentCeiling then 10 * n + (c.toNat - '0'.toNat) else n) 0

/-- An exponent below the ceiling is read in full. -/
theorem exponentSize_eq_ofDigits {cs : List Char} (h : ofDigits cs < exponentCeiling) :
    exponentSize cs = ofDigits cs := by
  rw [ofDigits_eq_ofDigitChars] at h ⊢
  have hfold : ∀ (cs : List Char) (n : Nat), Nat.ofDigitChars 10 cs n < exponentCeiling →
      cs.foldl (fun n c => if n < exponentCeiling then 10 * n + (c.toNat - '0'.toNat) else n) n =
        Nat.ofDigitChars 10 cs n := by
    intro cs
    induction cs with
    | nil => intro n _; rfl
    | cons c cs ih =>
      intro n hn
      have hlt : n < exponentCeiling := by
        have hle : n ≤ Nat.ofDigitChars 10 (c :: cs) n := by
          rw [Nat.ofDigitChars_eq_ofDigitChars_zero]
          exact Nat.le_trans (Nat.le_mul_of_pos_left n (Nat.pow_pos (by decide)))
            (Nat.le_add_right _ _)
        exact Nat.lt_of_le_of_lt hle hn
      rw [Nat.ofDigitChars_cons] at hn ⊢
      rw [List.foldl_cons, if_pos hlt, ih _ hn]
  exact hfold cs 0 h

/-- The exponent that a text spells after the digits: nothing, or a mark, an optional sign and
digits. -/
def exponentOf? : List Char → Option Int
  | [] => some 0
  | mark :: cs =>
    let (negative, ds) := splitSign cs
    if (mark == 'e' || mark == 'E') && !ds.isEmpty && ds.all Char.isDigit then
      some (if negative then -(exponentSize ds : Int) else exponentSize ds)
    else none

/-- The fraction digits after a point at the start of a text, and the text after them. -/
def splitFraction : List Char → List Char × List Char
  | '.' :: cs => (cs.takeWhile Char.isDigit, cs.dropWhile Char.isDigit)
  | cs => ([], cs)

/-- The decimal that a text without sign spells. -/
def Decimal.ofText? (cs : List Char) : Option Decimal :=
  let whole := cs.takeWhile Char.isDigit
  let (fraction, rest) := splitFraction (cs.dropWhile Char.isDigit)
  if whole.isEmpty && fraction.isEmpty then none
  else (exponentOf? rest).map fun e => ⟨ofDigits (whole ++ fraction), e - fraction.length⟩

/-- The magnitude that a text without sign spells. -/
def magnitudeOf? (cs : List Char) : Option Nat :=
  let name := String.ofList (cs.map Char.toLower)
  if name = "inf" || name = "infinity" then some infinityMagnitude
  else if name = "nan" then some (infinityMagnitude + leadingBit / 2)
  else (Decimal.ofText? cs).map Decimal.toMagnitude

/-- The number that a text spells. -/
def ofText? (cs : List Char) : Option Float :=
  let (negative, rest) := splitSign cs
  (magnitudeOf? rest).map (ofMagnitude negative)

end LineBasic.Number
