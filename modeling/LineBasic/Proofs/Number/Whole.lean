import LineBasic.Proofs.Number.Nearest
import LineBasic.Proofs.Number.Signed
import Mathlib.Data.Int.ConditionallyCompleteOrder
import Mathlib.Order.WithBotTop

/-!
# The whole part of a number

`wholePart?` is the exact value of a number with its fraction cut off. It is infinite for an
infinite number, and what is not a number has none. `toInt?` finds the finite ones, and gives a
number beyond all finite ones for the infinite ones (`toInt?_cases`). Whole numbers up to `2 ^ 53`
are numbers themselves (`toInt?_ofNat`).
-/

namespace LineBasic.Number

open Float.Model Float.Model.UnpackedFloat

/-- The whole part of the exact value of a number. -/
def wholePart? (x : Float) : Option EInt :=
  match x.toModel.unpack with
  | .notANumber => none
  | .infinity .positive => some ⊤
  | .infinity .negative => some ⊥
  | .zero _ => some 0
  | .finite sign m e _ => some (sign.apply ⌊(m : ℚ) * 2 ^ e⌋ : ℤ)

/-- The whole number that a number leaves when its fraction is cut off. What is not a number gives
none, and an infinite number gives a whole number beyond all finite ones. -/
def toInt? (x : Float) : Option Int :=
  let b := magnitude x
  if infinityMagnitude < b then none
  else
    let n := (Dyadic.ofMagnitude b).whole
    some (if isNegative x then -(n : Int) else n)

variable {x : Float}

/-! ## Finding the whole part -/

theorem apply_unpackSign (u : Bits) (n : ℤ) :
    (Sign.ofBitVec (unpackSign u)).apply n = if signBit ≤ u.toNat then -n else n := by
  have hlt : u.toNat < 2 ^ 64 := u.isLt
  have hsign : unpackSign u = 0#1 ↔ ¬ signBit ≤ u.toNat := by
    rw [← BitVec.toNat_inj, toNat_unpackSign, signBit_eq, BitVec.toNat_ofNat]
    omega
  rw [Sign.ofBitVec]
  split
  · rw [if_neg (hsign.mp ‹_›), Sign.apply]
  · rw [if_pos (not_not.mp (mt hsign.mpr ‹_›)), Sign.apply]

theorem Dyadic.whole_eq_floor (d : Dyadic) : (d.whole : ℤ) = ⌊d.value⌋ := by
  have hvalue : d.value = ((d.mantissa <<< d.exponent.toNat : Nat) : ℚ) /
      (2 ^ (-d.exponent).toNat : Nat) := by
    rw [shiftLeft_cast, value, zpow_eq_div]
    push_cast
    ring
  rw [hvalue, whole, Nat.shiftRight_eq_div_pow, Rat.floor_natCast_div_natCast]
  rfl

/-- What `toInt?` gives for an infinite number. -/
def beyond : ℤ := 2 ^ 1024

/-- What `toInt?` gives for a whole part. -/
inductive Finds : EInt → ℤ → Prop
  | finite (k : ℤ) : Finds k k
  | top : Finds ⊤ beyond
  | bot : Finds ⊥ (-beyond)

namespace Finds

variable {e : EInt} {k m : ℤ}

theorem eq_coe (h : Finds e k) (hlow : -beyond < k) (hhigh : k < beyond) : e = k := by
  cases h with
  | finite => rfl
  | top => exact absurd hhigh (lt_irrefl _)
  | bot => exact absurd hlow (lt_irrefl _)

theorem lt_iff (h : Finds e k) (hlow : -beyond < m) (hhigh : m < beyond) : e < m ↔ k < m := by
  cases h with
  | finite k => exact WithBotTop.coe_lt_coe
  | top => exact iff_of_false not_top_lt (not_lt_of_gt hhigh)
  | bot => exact iff_of_true (WithBot.bot_lt_coe _) hlow

theorem gt_iff (h : Finds e k) (hlow : -beyond < m) (hhigh : m < beyond) : m < e ↔ m < k := by
  cases h with
  | finite k => exact WithBotTop.coe_lt_coe
  | top => exact iff_of_true (WithBot.coe_lt_coe.mpr (WithTop.coe_lt_top _)) hhigh
  | bot => exact iff_of_false not_lt_bot (not_lt_of_gt hlow)

/-- The number of bytes that a length reaches to, where `m` bytes come before and `limit` is the
number of all bytes. -/
theorem min_add {limit : ℤ} (h : Finds e k) (hpos : 0 < k) (hm : 0 ≤ m) (hlimit : limit < beyond) :
    ((min (m + k) limit : ℤ) : EInt) = min (m + e) limit := by
  have hbeyond : 0 < beyond := by decide +kernel
  cases h with
  | finite k => exact WithBotTop.coe_monotone.map_min
  | top =>
    rw [min_eq_right (by omega)]
    exact (min_eq_right le_top).symm
  | bot => omega

end Finds

/-- The whole part and how it is found. -/
theorem toInt?_cases (x : Float) :
    (x.isNaN = true ∧ wholePart? x = none ∧ toInt? x = none) ∨
      ∃ e k, wholePart? x = some e ∧ toInt? x = some k ∧ Finds e k := by
  let u : Bits := x.toBits.toBitVec
  have hb : u.toNat % signBit = magnitude x := rfl
  have hunpack : x.toModel.unpack = unpack Format.binary64 u := rfl
  rcases Nat.lt_or_ge infinityMagnitude (magnitude x) with hnan | hle
  · refine .inl ⟨isNaN_iff.mpr hnan, ?_, if_pos hnan⟩
    rw [wholePart?, unpack_eq_notANumber.mpr hnan]
  · have hfound : toInt? x =
        some ((Sign.ofBitVec (unpackSign u)).apply (Dyadic.ofMagnitude (magnitude x)).whole) := by
      rw [toInt?, if_neg (Nat.not_lt_of_le hle), apply_unpackSign]
      simp only [isNegative, decide_eq_true_eq]
      rfl
    rw [hfound, wholePart?, hunpack]
    rcases Nat.eq_or_lt_of_le hle with htop | hlt
    · have hbeyond : ((Dyadic.ofMagnitude (magnitude x)).whole : ℤ) = beyond := by
        rw [htop]
        decide +kernel
      rw [unpack_infinity hb htop, hbeyond]
      cases Sign.ofBitVec (unpackSign u) with
      | positive => exact .inr ⟨_, _, rfl, rfl, .top⟩
      | negative => exact .inr ⟨_, _, rfl, rfl, .bot⟩
    · refine .inr ⟨_, _, ?_, rfl, .finite _⟩
      rcases Nat.eq_zero_or_pos (magnitude x) with hzero | hpos
      · rw [unpack_zero hb hzero, hzero]
        cases Sign.ofBitVec (unpackSign u) <;> rfl
      · obtain ⟨hm, hfinite⟩ := unpack_finite hb hpos hlt
        rw [hfinite, Dyadic.whole_eq_floor]
        rfl

/-! ## Whole numbers -/

theorem log2Div_one {k : Nat} (h : 0 < k) : log2Div k 1 = k.log2 := by
  have hle : 2 ^ k.log2 ≤ k := Nat.log2_self_le h.ne'
  have hone : Nat.log2 1 = 0 := by decide
  simp [log2Div, hone, Nat.shiftLeft_eq, hle]

theorem roundDiv_one (n : Nat) : roundDiv n 1 = n := by
  simp [roundDiv, Nat.mod_one]

theorem nearestMagnitude_le (num den : Nat) : nearestMagnitude num den ≤ infinityMagnitude := by
  rw [nearestMagnitude]
  split
  · decide
  · exact Nat.min_le_right ..

/-- The magnitude nearest to a whole number, by the place of its leading bit. -/
theorem nearestMagnitude_whole {k : Nat} (hpos : 0 < k) :
    nearestMagnitude k 1 = min ((k.log2 + 1022) * leadingBit +
      roundDiv (k <<< (52 - k.log2)) (1 <<< (k.log2 - 52))) infinityMagnitude := by
  have hexponent : max ((k.log2 : ℤ) - 52) leastExponent = k.log2 - 52 := by
    rw [leastExponent]
    omega
  have hup : (-((k.log2 : ℤ) - 52)).toNat = 52 - k.log2 := by omega
  have hdown : ((k.log2 : ℤ) - 52).toNat = k.log2 - 52 := by omega
  have hplace : ((k.log2 : ℤ) - 52 - leastExponent).toNat = k.log2 + 1022 := by
    rw [leastExponent]
    omega
  rw [nearestMagnitude, if_neg hpos.ne']
  dsimp only
  rw [log2Div_one hpos, hexponent, hup, hdown, hplace]

/-- A whole number, moved up until its leading bit is the one that a mantissa leads with. -/
theorem bounds_shiftLeft {k : Nat} (hpos : 0 < k) (hlt : k < 2 ^ 53) :
    k.log2 ≤ 52 ∧ leadingBit ≤ k * 2 ^ (52 - k.log2) ∧ k * 2 ^ (52 - k.log2) < 2 * leadingBit := by
  have hlog : k.log2 ≤ 52 := Nat.lt_succ_iff.mp ((Nat.log2_lt hpos.ne').mpr hlt)
  have hlow : 2 ^ k.log2 ≤ k := Nat.log2_self_le hpos.ne'
  have hhigh : k < 2 ^ (k.log2 + 1) := Nat.lt_log2_self
  have hpow : 2 ^ k.log2 * 2 ^ (52 - k.log2) = 2 ^ 52 := by
    rw [← pow_add, Nat.add_sub_cancel' hlog]
  rw [leadingBit_eq]
  refine ⟨hlog, hpow ▸ Nat.mul_le_mul_right _ hlow, ?_⟩
  calc k * 2 ^ (52 - k.log2) < 2 ^ (k.log2 + 1) * 2 ^ (52 - k.log2) :=
    Nat.mul_lt_mul_of_pos_right hhigh (by positivity)
    _ = 2 * 2 ^ 52 := by rw [pow_succ', Nat.mul_assoc, hpow]

theorem nearestMagnitude_one {k : Nat} (hpos : 0 < k) (hlt : k < 2 ^ 53) :
    nearestMagnitude k 1 = (k.log2 + 1022) * leadingBit + k * 2 ^ (52 - k.log2) := by
  obtain ⟨hlog, hlow, hhigh⟩ := bounds_shiftLeft hpos hlt
  rw [nearestMagnitude_whole hpos, Nat.sub_eq_zero_of_le hlog, Nat.shiftLeft_zero, roundDiv_one,
    Nat.shiftLeft_eq]
  apply Nat.min_eq_left
  rw [infinityMagnitude_eq]
  rw [leadingBit_eq] at hhigh ⊢
  omega

theorem ofMagnitude_nearestMagnitude {k : Nat} (hpos : 0 < k) (hlt : k < 2 ^ 53) :
    Dyadic.ofMagnitude (nearestMagnitude k 1) = ⟨k * 2 ^ (52 - k.log2), k.log2 - 52⟩ := by
  obtain ⟨hlog, hlow, hhigh⟩ := bounds_shiftLeft hpos hlt
  have hmagnitude := nearestMagnitude_one hpos hlt
  generalize k * 2 ^ (52 - k.log2) = m at *
  rw [hmagnitude, Dyadic.ofMagnitude]
  rw [leadingBit_eq] at hlow hhigh ⊢
  rw [if_neg (by omega), Dyadic.mk.injEq, leastExponent]
  constructor
  · omega
  · omega

theorem whole_nearestMagnitude {k : Nat} (hlt : k < 2 ^ 53) :
    (Dyadic.ofMagnitude (nearestMagnitude k 1)).whole = k := by
  rcases Nat.eq_zero_or_pos k with rfl | hpos
  · decide
  · have hlog := (bounds_shiftLeft hpos hlt).1
    have hup : ((k.log2 : ℤ) - 52).toNat = 0 := by omega
    have hdown : (-((k.log2 : ℤ) - 52)).toNat = 52 - k.log2 := by omega
    rw [ofMagnitude_nearestMagnitude hpos hlt, Dyadic.whole, hup, hdown, Nat.shiftLeft_zero,
      Nat.shiftRight_eq_div_pow, Nat.mul_div_cancel _ (by positivity)]

/-- The whole numbers up to `2 ^ 53` are numbers. -/
theorem toInt?_ofNat {k : Nat} (h : k ≤ 2 ^ 53) : toInt? (ofNat k) = some (k : ℤ) := by
  rcases Nat.eq_or_lt_of_le h with rfl | hlt
  · decide +kernel
  · have hle := nearestMagnitude_le k 1
    rw [toInt?, ofNat, ofQuotient, magnitude_ofMagnitude hle, if_neg (Nat.not_lt_of_le hle),
      isNegative_ofMagnitude hle, whole_nearestMagnitude hlt]
    rfl

end LineBasic.Number
