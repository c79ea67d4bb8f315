import LineBasic.Number.Decimal

/-!
# The shortest decimal of a number

Every decimal between the midpoints to the two neighbouring numbers reads back as the number itself,
and the midpoints do so too when the mantissa is even. `shortest` picks the decimal with the fewest
digits there, of two the nearer one, of two equally near the larger.

It looks at the multiples of ever smaller powers of ten. On each such grid it is enough to test the
two points next to the number.
-/

namespace LineBasic.Number

/-- The decimals that read back as one number, all counted in the same unit. -/
structure Basin where
  /-- The midpoint to the number below. -/
  low : Nat
  /-- The number itself. -/
  value : Nat
  /-- The midpoint to the number above. -/
  high : Nat
  /-- Whether the midpoints belong to the number. -/
  closed : Bool
  /-- The unit as a power of two. -/
  exponent : Int

/-- The basin of a finite positive magnitude. The number below is half as far as the one above where
the power of two changes. -/
def Basin.ofMagnitude (b : Nat) : Basin :=
  let d := Dyadic.ofMagnitude b
  let narrow := d.mantissa = leadingBit ∧ leastExponent < d.exponent
  { low := 4 * d.mantissa - if narrow then 1 else 2
    value := 4 * d.mantissa
    high := 4 * d.mantissa + 2
    closed := d.mantissa % 2 = 0
    exponent := d.exponent - 2 }

/-- Whether the quotient `point * den / num`, with the unit as `num / den`, lies in the basin. -/
def Basin.contains (s : Basin) (num den point : Nat) : Bool :=
  let p := point * den
  (s.low * num < p || (s.closed && s.low * num = p)) &&
    (p < s.high * num || (s.closed && p = s.high * num))

/-- The multiple of `10 ^ grid` that lies in the basin and nearest to the number, as a count of that
power; of two equally near the larger. -/
def Basin.nearestOn? (s : Basin) (grid : Int) : Option Nat :=
  let num := Nat.pow 10 (-grid).toNat <<< s.exponent.toNat
  let den := Nat.pow 10 grid.toNat <<< (-s.exponent).toNat
  let below := s.value * num / den
  let above := below + 1
  if s.contains num den below then
    if s.contains num den above && above * den - s.value * num ≤ s.value * num - below * den then
      some above
    else some below
  else if s.contains num den above then some above
  else none

/-- The whole value, digit for digit. -/
def Dyadic.toDecimal (d : Dyadic) : Decimal :=
  if 0 ≤ d.exponent then ⟨d.mantissa <<< d.exponent.toNat, 0⟩
  else ⟨d.mantissa * Nat.pow 5 (-d.exponent).toNat, d.exponent⟩

/-- The first hit on at most `count` grids from `10 ^ grid` downwards, and the exact value if there
is none. -/
def Basin.search (s : Basin) (exact : Decimal) : (count : Nat) → (grid : Int) → Decimal
  | 0, _ => exact
  | count + 1, grid =>
    match s.nearestOn? grid with
    | some n => ⟨n, grid⟩
    | none => s.search exact count (grid - 1)

/-- A power of ten above a dyadic number: 30103 / 100000 is the logarithm of two. -/
def Dyadic.gridAbove (d : Dyadic) : Int :=
  (d.mantissa.log2 + d.exponent) * 30103 / 100000 + 1

/-- The shortest decimal that reads back as a finite positive magnitude. Seventeen digits always
suffice, so twenty grids do. -/
def shortest (b : Nat) : Decimal :=
  let d := Dyadic.ofMagnitude b
  (Basin.ofMagnitude b).search d.toDecimal 20 d.gridAbove

end LineBasic.Number
