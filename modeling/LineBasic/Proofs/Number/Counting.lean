import LineBasic.Proofs.Number.Ordered
import LineBasic.Proofs.Number.Rounding
import LineBasic.Proofs.Number.Whole

/-!
# Counting with numbers

Counts are compared, added and cut back as floating-point numbers. Rounding keeps the order of whole
numbers (`nearestMagnitude_mono`), and below `2 ^ 53` no two of them become the same number, so that
numbers are ordered as the whole numbers are if one of these is small (`ofNat_lt_iff`). A number
whose fraction is cut off is a whole number or is not positive (`truncate_cases`). The sum of a
small whole number and such a number is again the number of a whole number (`ofNat_add_whole`), and
small whole numbers are turned back into the counts that they are (`toNat_toUInt64_ofNat`).
-/

namespace LineBasic.Number

open Float.Model Float.Model.UnpackedFloat

/-! ## The order of whole numbers -/

theorem div_le_roundDiv (num den : Nat) : num / den ≤ roundDiv num den := by
  unfold roundDiv
  dsimp only
  split_ifs <;> omega

theorem roundDiv_le (num den : Nat) : roundDiv num den ≤ num / den + 1 := by
  unfold roundDiv
  dsimp only
  split_ifs <;> omega

theorem roundDiv_mono {a b : Nat} (den : Nat) (h : a ≤ b) : roundDiv a den ≤ roundDiv b den := by
  rcases Nat.eq_or_lt_of_le (Nat.div_le_div_right (c := den) h) with heq | hlt
  · have hrest : a % den ≤ b % den := by
      have ha := Nat.div_add_mod a den
      have hb := Nat.div_add_mod b den
      rw [heq] at ha
      omega
    unfold roundDiv
    dsimp only
    rw [heq]
    split_ifs <;> omega
  · exact (roundDiv_le a den).trans (Nat.le_trans hlt (div_le_roundDiv b den))

/-- The leading bit of a whole number that is moved to its place stays there when the number is
rounded. -/
theorem bounds_roundDiv {k : Nat} (hpos : 0 < k) :
    leadingBit ≤ roundDiv (k <<< (52 - k.log2)) (1 <<< (k.log2 - 52)) ∧
      roundDiv (k <<< (52 - k.log2)) (1 <<< (k.log2 - 52)) ≤ 2 * leadingBit := by
  have hlow : 2 ^ k.log2 ≤ k := Nat.log2_self_le hpos.ne'
  have hhigh : k < 2 ^ (k.log2 + 1) := Nat.lt_log2_self
  have hden : 0 < 2 ^ (k.log2 - 52) := by positivity
  rw [Nat.shiftLeft_eq, Nat.one_shiftLeft, leadingBit_eq]
  constructor
  · refine le_trans ?_ (div_le_roundDiv ..)
    rw [Nat.le_div_iff_mul_le hden, ← pow_add]
    calc 2 ^ (52 + (k.log2 - 52)) = 2 ^ (k.log2 + (52 - k.log2)) := by congr 1; omega
      _ = 2 ^ k.log2 * 2 ^ (52 - k.log2) := pow_add ..
      _ ≤ k * 2 ^ (52 - k.log2) := Nat.mul_le_mul_right _ hlow
  · refine (roundDiv_le ..).trans (Nat.succ_le_of_lt ?_)
    rw [Nat.div_lt_iff_lt_mul hden, ← pow_succ', ← pow_add]
    calc k * 2 ^ (52 - k.log2) < 2 ^ (k.log2 + 1) * 2 ^ (52 - k.log2) :=
      Nat.mul_lt_mul_of_pos_right hhigh (by positivity)
      _ = 2 ^ (k.log2 + 1 + (52 - k.log2)) := (pow_add ..).symm
      _ = 2 ^ (52 + 1 + (k.log2 - 52)) := by congr 1; omega

/-- Rounding keeps the order of whole numbers. -/
theorem nearestMagnitude_mono {j k : Nat} (h : j ≤ k) :
    nearestMagnitude j 1 ≤ nearestMagnitude k 1 := by
  rcases Nat.eq_zero_or_pos j with rfl | hj
  · rw [nearestMagnitude, if_pos rfl]
    exact Nat.zero_le _
  · have hk : 0 < k := Nat.lt_of_lt_of_le hj h
    have hlog : j.log2 ≤ k.log2 := (Nat.le_log2 hk.ne').mpr ((Nat.log2_self_le hj.ne').trans h)
    rw [nearestMagnitude_whole hj, nearestMagnitude_whole hk]
    apply min_le_min_right
    rcases Nat.eq_or_lt_of_le hlog with heq | hlt
    · rw [heq]
      apply Nat.add_le_add_left
      apply roundDiv_mono
      rw [Nat.shiftLeft_eq, Nat.shiftLeft_eq]
      exact Nat.mul_le_mul_right _ h
    · -- The exponents differ, and the mantissa of the smaller number reaches at most the next power
      -- of two.
      calc (j.log2 + 1022) * leadingBit + _ ≤ (j.log2 + 1022) * leadingBit + 2 * leadingBit :=
            Nat.add_le_add_left (bounds_roundDiv hj).2 _
        _ = (j.log2 + 1 + 1022) * leadingBit + leadingBit := by ring
        _ ≤ (k.log2 + 1022) * leadingBit + leadingBit := by gcongr; exact hlt
        _ ≤ (k.log2 + 1022) * leadingBit + _ := Nat.add_le_add_left (bounds_roundDiv hk).1 _

/-- Below `2 ^ 53` no two whole numbers are rounded to the same number. -/
theorem nearestMagnitude_lt {j k : Nat} (h : j < k) (hj : j < 2 ^ 53) :
    nearestMagnitude j 1 < nearestMagnitude k 1 := by
  refine Nat.lt_of_lt_of_le (Nat.lt_of_le_of_ne (nearestMagnitude_mono (Nat.le_succ j)) fun heq =>
    ?_) (nearestMagnitude_mono h)
  have hsame : ofNat j = ofNat (j + 1) := congrArg (ofMagnitude false) heq
  have hj' := toInt?_ofNat hj.le
  rw [hsame, toInt?_ofNat (k := j + 1) hj, Option.some_inj] at hj'
  omega

section order

variable {j k : Nat} (h : j < 2 ^ 53 ∨ k < 2 ^ 53)
include h

theorem ofNat_lt_iff : ofNat j < ofNat k ↔ j < k := by
  refine (ofMagnitude_lt_iff (nearestMagnitude_le ..) (nearestMagnitude_le ..)).trans ⟨fun hlt =>
    ?_, fun hlt => ?_⟩
  · exact Nat.lt_of_not_le fun hle => Nat.not_le_of_lt hlt (nearestMagnitude_mono hle)
  · exact nearestMagnitude_lt hlt (by omega)

theorem ofNat_le_iff : ofNat j ≤ ofNat k ↔ j ≤ k := by
  refine (ofMagnitude_le_iff (nearestMagnitude_le ..) (nearestMagnitude_le ..)).trans ⟨fun hle =>
    ?_, fun hle => ?_⟩
  · exact Nat.le_of_not_lt fun hlt => Nat.not_lt_of_le hle (nearestMagnitude_lt hlt (by omega))
  · exact nearestMagnitude_mono hle

theorem min_ofNat : min (ofNat j) (ofNat k) = ofNat (min j k) := by
  show (if ofNat j ≤ ofNat k then ofNat j else ofNat k) = _
  rw [min_def, apply_ite ofNat]
  simp only [ofNat_le_iff h]

end order

theorem ofNat_zero : ofNat 0 = 0 := (eq_ofMagnitude (by decide +kernel)).symm

theorem ofNat_one : ofNat 1 = 1 := (eq_ofMagnitude (by decide +kernel)).symm

/-! ## Sums of whole numbers -/

/-- Small whole numbers are numbers. -/
theorem value_nearestMagnitude {k : Nat} (h : k < 2 ^ 53) :
    nearestMagnitude k 1 < infinityMagnitude ∧
      (Dyadic.ofMagnitude (nearestMagnitude k 1)).value = k := by
  refine ⟨Nat.lt_of_lt_of_le (nearestMagnitude_lt h h) (nearestMagnitude_le ..), ?_⟩
  rcases Nat.eq_zero_or_pos k with rfl | hpos
  · rw [Nat.cast_zero]
    exact Dyadic.value_zero
  · have hlog := (bounds_shiftLeft hpos h).1
    have hexponent : (k.log2 : ℤ) - 52 = -(52 - k.log2 : Nat) := by omega
    rw [ofMagnitude_nearestMagnitude hpos h, Dyadic.value, hexponent, zpow_neg, zpow_natCast]
    push_cast
    field_simp

/-- The whole part of a number is a number. -/
theorem value_nearestMagnitude_whole {b : Nat} (h : b < infinityMagnitude) :
    nearestMagnitude (Dyadic.ofMagnitude b).whole 1 < infinityMagnitude ∧
      (Dyadic.ofMagnitude (nearestMagnitude (Dyadic.ofMagnitude b).whole 1)).value =
        (Dyadic.ofMagnitude b).whole := by
  rcases lt_or_ge (Dyadic.ofMagnitude b).exponent 0 with hfraction | hwhole
  · -- With a fraction cut off, what is left is not larger than the mantissa.
    have hmantissa : (Dyadic.ofMagnitude b).mantissa < 2 ^ 53 := by
      rcases Nat.eq_zero_or_pos b with rfl | hpos
      · decide
      · exact (Dyadic.isCanonical_ofMagnitude hpos).lt
    have hup : (Dyadic.ofMagnitude b).exponent.toNat = 0 := by omega
    apply value_nearestMagnitude
    rw [Dyadic.whole, hup, Nat.shiftLeft_zero, Nat.shiftRight_eq_div_pow]
    exact Nat.lt_of_le_of_lt (Nat.div_le_self ..) hmantissa
  · have hvalue : ((Dyadic.ofMagnitude b).whole : ℚ) = (Dyadic.ofMagnitude b).value := by
      have hdown : (-(Dyadic.ofMagnitude b).exponent).toNat = 0 := by omega
      rw [Dyadic.whole, hdown, Nat.shiftRight_zero, shiftLeft_cast, Dyadic.value, ← zpow_natCast,
        Int.toNat_of_nonneg hwhole]
    rw [nearestMagnitude_of_eq h one_pos (by rw [Nat.cast_one, div_one, hvalue])]
    exact ⟨h, hvalue.symm⟩

/-- The sum of a small whole number and the whole part of a number, which may be infinite, is the
nearest number to the sum of the two. -/
theorem ofNat_add_whole {j b : Nat} (hj : j < 2 ^ 53) (hb : b ≤ infinityMagnitude) :
    ofNat j + ofNat (Dyadic.ofMagnitude b).whole = ofNat (j + (Dyadic.ofMagnitude b).whole) := by
  rcases Nat.eq_or_lt_of_le hb with rfl | hlt
  · have htop : nearestMagnitude (Dyadic.ofMagnitude infinityMagnitude).whole 1 =
        infinityMagnitude := by decide +kernel
    generalize (Dyadic.ofMagnitude infinityMagnitude).whole = k at htop ⊢
    have hsum : nearestMagnitude (j + k) 1 = infinityMagnitude :=
      Nat.le_antisymm (nearestMagnitude_le ..) (htop ▸ nearestMagnitude_mono (Nat.le_add_left k j))
    rw [ofNat, ofNat, ofNat, ofQuotient, ofQuotient, ofQuotient, htop, hsum]
    exact ofMagnitude_add_infinity (nearestMagnitude_le ..)
  · obtain ⟨hfinite, hvalue⟩ := value_nearestMagnitude hj
    obtain ⟨hfinite', hvalue'⟩ := value_nearestMagnitude_whole hlt
    apply ofMagnitude_add hfinite hfinite' one_pos
    rw [hvalue, hvalue', Nat.cast_add, Nat.cast_one, div_one]

/-! ## Cutting off fractions -/

/-- A number whose fraction is cut off has the sign and the whole part of the number, also if it is
infinite. -/
theorem truncate_eq {x : Float} (h : magnitude x ≤ infinityMagnitude) :
    truncate x =
      ofMagnitude (isNegative x) (nearestMagnitude (Dyadic.ofMagnitude (magnitude x)).whole 1) := by
  rcases Nat.eq_or_lt_of_le h with htop | hlt
  · have hinfinity : nearestMagnitude (Dyadic.ofMagnitude (magnitude x)).whole 1 = magnitude x := by
      rw [htop]
      decide +kernel
    rw [truncate, if_pos htop.ge, hinfinity, ofMagnitude_magnitude]
  · rw [truncate, if_neg (Nat.not_le_of_lt hlt)]

theorem isNaN_ofMagnitude {negative : Bool} {b : Nat} (h : b ≤ infinityMagnitude) :
    (ofMagnitude negative b).isNaN = false := by
  rw [← Bool.not_eq_true, isNaN_iff, magnitude_ofMagnitude h]
  exact Nat.not_lt_of_le h

theorem isNaN_ofNat (k : Nat) : (ofNat k).isNaN = false :=
  isNaN_ofMagnitude (nearestMagnitude_le ..)

/-- What a number is whose fraction is cut off: a whole number, or a number that is not positive. -/
theorem truncate_cases (x : Float) :
    (toInt? x = none ∧ (truncate x).isNaN = true) ∨
      ∃ b ≤ infinityMagnitude, toInt? x = some ((Dyadic.ofMagnitude b).whole : ℤ) ∧
          truncate x = ofNat (Dyadic.ofMagnitude b).whole ∨
        toInt? x = some (-((Dyadic.ofMagnitude b).whole : ℤ)) ∧ truncate x ≤ 0 ∧
          truncate x < 1 := by
  rcases Nat.lt_or_ge infinityMagnitude (magnitude x) with hnan | hle
  · refine .inl ⟨if_pos hnan, ?_⟩
    rw [truncate, if_pos hnan.le]
    exact isNaN_iff.mpr hnan
  · refine .inr ⟨magnitude x, hle, ?_⟩
    rw [toInt?, if_neg (Nat.not_lt_of_le hle), truncate_eq hle]
    cases isNegative x with
    | false => exact .inl ⟨rfl, rfl⟩
    | true =>
      have hnan :
          (ofMagnitude true (nearestMagnitude (Dyadic.ofMagnitude (magnitude x)).whole 1)).isNaN =
          false :=
        isNaN_ofMagnitude (nearestMagnitude_le ..)
      exact .inr ⟨rfl, nonpos_of_isNegative (isNegative_ofMagnitude (nearestMagnitude_le ..)) hnan⟩

/-! ## Counts -/

/-- A number without a sign that is turned into a count keeps its whole part. -/
theorem toNat_toUInt64 {b : Nat} (hb : b < infinityMagnitude)
    (h : (Dyadic.ofMagnitude b).whole < UInt64.size) :
    (ofMagnitude false b).toUInt64.toNat = (Dyadic.ofMagnitude b).whole := by
  have hclamp : ∀ {n : Nat}, n < UInt64.size → (UInt64.ofNatClamp n).toNat = n := by
    intro n hn
    rw [UInt64.ofNatClamp, dif_pos hn]
    exact UInt64.toNat_ofNatLT
  rcases unpack_cases hb.le with ⟨rfl, hx⟩ | ⟨-, hm, hx⟩ | ⟨htop, -⟩
  · show (ofMagnitude false 0).toModel.unpack.toUInt64.toNat = _
    rw [hx]
    decide
  · have hfloor :=
      roundToInt_eq_floor (Dyadic.ofMagnitude b).mantissa (Dyadic.ofMagnitude b).exponent
    rw [← Dyadic.value, ← Dyadic.whole_eq_floor] at hfloor
    show (ofMagnitude false b).toModel.unpack.toUInt64.toNat = _
    rw [hx]
    show (UInt64.ofNatClamp (roundToInt .positive _ _).toNat).toNat = _
    rw [hfloor, Int.toNat_natCast, hclamp h]
  · exact absurd htop hb.ne

theorem toNat_toUInt64_ofNat {k : Nat} (h : k < 2 ^ 53) : (ofNat k).toUInt64.toNat = k := by
  have hwhole := whole_nearestMagnitude h
  have hlt : (Dyadic.ofMagnitude (nearestMagnitude k 1)).whole < UInt64.size := by
    rw [hwhole]
    exact h.trans (by decide)
  exact (toNat_toUInt64 (value_nearestMagnitude h).1 hlt).trans hwhole

end LineBasic.Number
