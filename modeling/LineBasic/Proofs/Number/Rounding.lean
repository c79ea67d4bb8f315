import LineBasic.Proofs.Number.Shortest
import LineBasic.Proofs.Number.Signed

/-!
# Rounding and sums

The arithmetic of numbers carries two bits below the mantissa, which tell whether a quotient lies in
the middle between two mantissas and whether it lies beyond (`Measures`). That is enough to find the
nearest mantissa (`Measures.isNearest`), so that what is rounded is the number nearest to the exact
value (`toNat_pack_round`). The sum of two numbers is the number nearest to the sum of their values
(`ofMagnitude_add`).
-/

namespace LineBasic.Number

open Float.Model Float.Model.UnpackedFloat

/-! ## The bits below a mantissa -/

/-- What a mantissa and the two bits below it tell of a quotient. -/
inductive Measures : ExtendedMantissa → ℚ → Prop
  | whole {m : Nat} {q : ℚ} (h : q = m) : Measures ⟨m, false, false⟩ q
  | low {m : Nat} {q : ℚ} (hlow : m < q) (hhigh : q < m + 1 / 2) : Measures ⟨m, false, true⟩ q
  | half {m : Nat} {q : ℚ} (h : q = m + 1 / 2) : Measures ⟨m, true, false⟩ q
  | high {m : Nat} {q : ℚ} (hlow : m + 1 / 2 < q) (hhigh : q < m + 1) : Measures ⟨m, true, true⟩ q

namespace Measures

variable {em : ExtendedMantissa} {q : ℚ}

theorem mantissa_le (h : Measures em q) : (em.mantissa : ℚ) ≤ q := by
  cases h <;> dsimp only <;> linarith

theorem lt_mantissa_add_one (h : Measures em q) : q < em.mantissa + 1 := by
  cases h <;> dsimp only <;> linarith

theorem mantissa_eq_floor (h : Measures em q) : (em.mantissa : ℤ) = ⌊q⌋ := by
  symm
  rw [Int.floor_eq_iff]
  exact ⟨by exact_mod_cast h.mantissa_le, by exact_mod_cast h.lt_mantissa_add_one⟩

/-- One of the bits is set if the mantissa is less than the quotient. -/
theorem bits_iff (h : Measures em q) :
    (em.roundBit || em.stickyBit) = true ↔ (em.mantissa : ℚ) < q := by
  cases h with
  | whole h => exact iff_of_false Bool.false_ne_true (h ▸ lt_irrefl _)
  | low hlow => exact iff_of_true rfl hlow
  | half h => exact iff_of_true rfl (by dsimp only; linarith)
  | high hlow => exact iff_of_true rfl (by dsimp only; linarith)

theorem shiftRightOne (h : Measures em q) : Measures em.shiftRightOne (q / 2) := by
  have hle := h.mantissa_le
  have hlt := h.lt_mantissa_add_one
  have hbits := h.bits_iff
  obtain ⟨k, hk⟩ := Nat.even_or_odd' em.mantissa
  rw [ExtendedMantissa.shiftRightOne]
  generalize em.mantissa = m at *
  rcases Bool.eq_false_or_eq_true (em.roundBit || em.stickyBit) with
    hset | hset <;> rw [hset] at hbits ⊢
  · have hlow : (m : ℚ) < q := hbits.mp rfl
    rcases hk with rfl | rfl
    · have hdiv : 2 * k / 2 = k := by omega
      rw [hdiv, Nat.mul_mod_right]
      push_cast at hlow hlt
      exact .low (by linarith) (by linarith)
    · have hdiv : (2 * k + 1) / 2 = k := by omega
      have hmod : (2 * k + 1) % 2 = 1 := by omega
      rw [hdiv, hmod]
      push_cast at hlow hlt
      exact .high (by linarith) (by linarith)
  · have heq : q = m := le_antisymm (not_lt.mp fun hlow => Bool.false_ne_true (hbits.mpr hlow)) hle
    rcases hk with rfl | rfl
    · have hdiv : 2 * k / 2 = k := by omega
      rw [hdiv, Nat.mul_mod_right]
      push_cast at heq
      exact .whole (by linarith)
    · have hdiv : (2 * k + 1) / 2 = k := by omega
      have hmod : (2 * k + 1) % 2 = 1 := by omega
      rw [hdiv, hmod]
      push_cast at heq
      exact .half (by linarith)

theorem shiftRight (h : Measures em q) (k : Nat) : Measures (em >>> k) (q / 2 ^ k) := by
  show Measures (k.repeat ExtendedMantissa.shiftRightOne em) _
  induction k with
  | zero => rwa [pow_zero, div_one]
  | succ k ih =>
    rw [pow_succ, ← div_div]
    exact ih.shiftRightOne

/-- The two bits are enough to find the nearest mantissa. -/
theorem isNearest (h : Measures em q) : IsNearest em.roundedMantissa q := by
  cases h with
  | @whole m _ h =>
    show IsNearest m q
    exact ⟨.inl (by linarith), .inl (by linarith)⟩
  | @low m _ hlow hhigh =>
    show IsNearest m q
    exact ⟨.inl (by linarith), .inl hhigh⟩
  | @half m _ h =>
    show IsNearest (m + m % 2) q
    rcases Nat.mod_two_eq_zero_or_one m with hm | hm <;> rw [hm]
    · exact ⟨.inl (by push_cast; linarith), .inr ⟨by omega, by push_cast; linarith⟩⟩
    · exact ⟨.inr ⟨by omega, by push_cast; linarith⟩, .inl (by push_cast; linarith)⟩
  | @high m _ hlow hhigh =>
    show IsNearest (m + 1) q
    exact ⟨.inl (by push_cast; linarith), .inl (by push_cast; linarith)⟩

end Measures

/-! ## Rounding -/

/-- A mantissa in a smaller unit has the same value. -/
theorem shiftLeft_mul_zpow (m k : Nat) (e : ℤ) :
    ((m <<< k : Nat) : ℚ) * 2 ^ (e - k) = m * 2 ^ e := by
  rw [shiftLeft_cast, zpow_sub₀ two_ne_zero, zpow_natCast]
  field_simp

/-- A shift to a larger exponent measures the value in the new unit. -/
theorem measures_shiftToExponent (m : Nat) {e t : ℤ} (h : e ≤ t) :
    Measures (shiftToExponent m e .exact t).1 (m * 2 ^ e / 2 ^ t) ∧
      (shiftToExponent m e .exact t).2 = t := by
  have hshift : (((t - e).toNat : Nat) : ℤ) = t - e := Int.toNat_of_nonneg (by omega)
  refine ⟨?_, ?_⟩
  · have hunit : (m : ℚ) * 2 ^ e / 2 ^ t = m / 2 ^ (t - e).toNat := by
      rw [← zpow_natCast, hshift, zpow_sub₀ two_ne_zero]
      field_simp
    rw [hunit]
    exact (Measures.whole rfl).shiftRight _
  · show e + ((t - e).toNat : Nat) = t
    omega

/-- The whole part of a mantissa in some unit. -/
theorem roundToInt_eq_floor (m : Nat) (e : ℤ) : roundToInt .positive m e = ⌊(m : ℚ) * 2 ^ e⌋ := by
  obtain ⟨hmeasures, -⟩ :=
    measures_shiftToExponent (m <<< (e - 0).toNat) (show e - (e - 0).toNat ≤ 0 by omega)
  rw [shiftLeft_mul_zpow, zpow_zero, div_one] at hmeasures
  exact hmeasures.mantissa_eq_floor

theorem targetExponent_eq (m : Nat) (e : ℤ) :
    Format.binary64.targetExponent (totalExponent m e) = max (m.log2 + e - 52) leastExponent := by
  have hleast : Format.binary64.minExponent = leastExponent := by decide
  have hbits : Format.binary64.mantissaBits = 53 := rfl
  rw [Format.targetExponent, totalExponent, hleast, hbits]
  congr 1
  omega

/-- A mantissa that has become too long by rounding is the next power of two, and moves up by one
bit. -/
theorem shiftToTargetExponent_of_le {r : Nat} {t : ℤ} (hr : r ≤ 2 * leadingBit)
    (ht : leastExponent ≤ t) :
    shiftToTargetExponent Format.binary64 r t .exact =
      if r < 2 * leadingBit then (⟨r, false, false⟩, t) else
        (⟨leadingBit, false, false⟩, t + 1) := by
  rw [shiftToTargetExponent, targetExponent_eq]
  split
  · rename_i hlt
    have hlog : r.log2 ≤ 52 := by
      rcases Nat.eq_zero_or_pos r with rfl | hpos
      · decide
      · exact Nat.lt_succ_iff.mp ((Nat.log2_lt hpos.ne').mpr hlt)
    have hshift : (max ((r.log2 : ℤ) + t - 52) leastExponent - t).toNat = 0 := by omega
    simp only [shiftToExponent, hshift]
    exact Prod.ext rfl (add_zero t)
  · obtain rfl : r = 2 * leadingBit := by omega
    have hlog : (2 * leadingBit).log2 = 53 := by decide
    have hshift : (max (((2 * leadingBit).log2 : ℤ) + t - 52) leastExponent - t).toNat = 1 := by
      omega
    simp only [shiftToExponent, hshift]
    rfl

theorem log2Div_eq {num den : Nat} {l : ℤ} (hnum : 0 < num) (hden : 0 < den)
    (hlow : (2 : ℚ) ^ l ≤ num / den) (hhigh : (num : ℚ) / den < 2 ^ (l + 1)) :
    log2Div num den = l := by
  obtain ⟨hlow', hhigh'⟩ := log2Div_spec hnum hden
  have hlt := (zpow_lt_zpow_iff_right₀ (one_lt_two : (1 : ℚ) < 2)).mp (hlow.trans_lt hhigh')
  have hgt := (zpow_lt_zpow_iff_right₀ (one_lt_two : (1 : ℚ) < 2)).mp (hlow'.trans_lt hhigh)
  omega

theorem toNat_packComponents {k : Nat} (hk : k < 2 ^ 11) (m : Nat) :
    (packComponents Format.binary64 .positive (BitVec.ofNat _ k) (BitVec.ofNat _ m)).toNat =
      k * leadingBit + m % leadingBit := by
  have hmod : k % 2 ^ 11 = k := Nat.mod_eq_of_lt hk
  rw [packComponents, BitVec.toNat_append, BitVec.toNat_append,
    ← Nat.shiftLeft_add_eq_or_of_lt (BitVec.isLt _),
      ← Nat.shiftLeft_add_eq_or_of_lt (BitVec.isLt _)]
  simp only [BitVec.toNat_ofNat, hmod, Nat.shiftLeft_eq, leadingBit_eq, Sign.toBitVec]
  omega

/-- The bits of a dyadic number are its magnitude. One that is too large is infinite. -/
theorem toNat_pack {m b : Nat} {e : ℤ} (h : Dyadic.IsCanonical ⟨m, e⟩ b) :
    (UnpackedFloat.pack Format.binary64 (.finite .positive m e h.pos)).toNat =
      min b infinityMagnitude := by
  obtain ⟨k, he⟩ : ∃ k : Nat, e = k + leastExponent :=
    ⟨(e - leastExponent).toNat, by
      rw [Int.toNat_of_nonneg (sub_nonneg.mpr h.least_le), sub_add_cancel]⟩
  have hlt : m < 2 * leadingBit := h.lt
  have hmagnitude : k * leadingBit + m = b := by
    rw [← h.magnitude_eq, he, add_sub_cancel_right, Int.toNat_natCast]
  by_cases hm : m < leadingBit
  · obtain rfl : k = 0 := by
      by_contra hne
      exact absurd (h.le (show leastExponent < e by omega)) (Nat.not_le_of_lt hm)
    obtain rfl : e = leastExponent := by rw [he, Nat.cast_zero, zero_add]
    have hb : b ≤ infinityMagnitude := by
      rw [← hmagnitude, Nat.zero_mul, Nat.zero_add]
      exact hm.le.trans (by decide)
    rw [pack_subnormal .positive h.pos hm, toNat_packComponents (by decide), Nat.mod_eq_of_lt hm,
      min_eq_left hb]
    exact hmagnitude
  · have hle : leadingBit ≤ m := Nat.le_of_not_lt hm
    obtain rfl : e = (k + 1 : Nat) - 1 + leastExponent := by
      rw [he, Nat.cast_add_one, add_sub_cancel_right]
    by_cases hk : k + 1 < 2047
    · have hb : b ≤ infinityMagnitude := by
        calc b = k * leadingBit + m := hmagnitude.symm
          _ ≤ k * leadingBit + 2 * leadingBit := Nat.add_le_add_left hlt.le _
          _ = (k + 2) * leadingBit := (Nat.add_mul ..).symm
          _ ≤ 2047 * leadingBit := Nat.mul_le_mul_right _ hk
      have hstored : leadingBit + m % leadingBit = m := by
        rw [Nat.mod_eq_sub_mod hle, Nat.mod_eq_of_lt (by omega), Nat.add_sub_cancel' hle]
      rw [pack_normal .positive h.pos hle hlt hk, toNat_packComponents (by omega), min_eq_left hb,
        Nat.add_one_mul, Nat.add_assoc, hstored, hmagnitude]
    · have hb : infinityMagnitude ≤ b := by
        calc infinityMagnitude ≤ (k + 1) * leadingBit :=
          Nat.mul_le_mul_right _ (Nat.le_of_not_lt hk)
          _ = k * leadingBit + leadingBit := Nat.add_one_mul ..
          _ ≤ k * leadingBit + m := Nat.add_le_add_left hle _
          _ = b := hmagnitude
      have hbias : 2 ^ Format.binary64.exponentBits ≤ (((k + 1 : Nat) : ℤ) - 1 + leastExponent +
          Format.binary64.exponentBias + Format.binary64.mantissaBitsWithoutImplicit).toNat +
            1 := by
        simp only [leastExponent, Format.exponentBias]
        omega
      unfold UnpackedFloat.pack
      dsimp only
      rw [if_pos hbias, min_eq_right hb]
      decide

theorem IsNearest.le {r n : Nat} {q : ℚ} (h : IsNearest r q) (hq : q < n) : r ≤ n := by
  have hr : (r : ℚ) - 1 / 2 ≤ q := by rcases h.low with h | ⟨-, h⟩ <;> linarith
  have hlt : (r : ℚ) < (n + 1 : Nat) := by
    push_cast
    linarith
  exact Nat.lt_succ_iff.mp (by exact_mod_cast hlt)

theorem IsNearest.ge {r n : Nat} {q : ℚ} (h : IsNearest r q) (hq : n ≤ q) : n ≤ r := by
  have hr : q ≤ r + 1 / 2 := by rcases h.high with h | ⟨-, h⟩ <;> linarith
  have hlt : (n : ℚ) < (r + 1 : Nat) := by
    push_cast
    linarith
  exact Nat.lt_succ_iff.mp (by exact_mod_cast hlt)

theorem log2_shiftLeft {m : Nat} (hm : 0 < m) (k : Nat) : (m <<< k).log2 = m.log2 + k := by
  have hne : m <<< k ≠ 0 := by
    rw [Nat.shiftLeft_eq]
    positivity
  rw [Nat.log2_eq_iff hne, Nat.shiftLeft_eq]
  constructor
  · rw [pow_add]
    exact Nat.mul_le_mul_right _ (Nat.log2_self_le hm.ne')
  · rw [Nat.add_right_comm, pow_add]
    exact Nat.mul_lt_mul_of_pos_right Nat.lt_log2_self (by positivity)

/-- The value of a mantissa, counted in the unit that it is rounded to, has as many bits as a
mantissa may have. Only in the least unit it may have fewer. -/
theorem bounds_target {m : Nat} (hm : 0 < m) (e : ℤ) :
    (m : ℚ) * 2 ^ e / 2 ^ max ((m.log2 : ℤ) + e - 52) leastExponent < (2 * leadingBit : Nat) ∧
      (leastExponent < max ((m.log2 : ℤ) + e - 52) leastExponent →
        (leadingBit : ℚ) ≤ m * 2 ^ e / 2 ^ max ((m.log2 : ℤ) + e - 52) leastExponent) := by
  have hlow : (2 : ℚ) ^ m.log2 ≤ m := by exact_mod_cast Nat.log2_self_le hm.ne'
  have hhigh : (m : ℚ) < 2 ^ (m.log2 + 1) := by exact_mod_cast Nat.lt_log2_self
  generalize ht : max ((m.log2 : ℤ) + e - 52) leastExponent = t
  have htwo : (0 : ℚ) < 2 ^ t := by positivity
  constructor
  · have hbit : ((2 * leadingBit : Nat) : ℚ) = 2 ^ (53 : ℤ) := by norm_num [leadingBit_eq]
    rw [hbit, div_lt_iff₀ htwo]
    calc (m : ℚ) * 2 ^ e < 2 ^ (m.log2 + 1) * 2 ^ e := by gcongr
      _ = 2 ^ ((m.log2 + 1 : Nat) + e) := by rw [zpow_add₀ two_ne_zero, zpow_natCast]
      _ ≤ 2 ^ (53 + t) := zpow_le_zpow_right₀ one_le_two (by omega)
      _ = 2 ^ (53 : ℤ) * 2 ^ t := zpow_add₀ two_ne_zero ..
  · intro hleast
    have hbit : (leadingBit : ℚ) = 2 ^ (52 : ℤ) := by norm_num [leadingBit_eq]
    rw [hbit, le_div_iff₀ htwo]
    calc (2 : ℚ) ^ (52 : ℤ) * 2 ^ t = 2 ^ ((m.log2 : ℤ) + e) := by
          rw [← zpow_add₀ two_ne_zero]
          congr 1
          omega
      _ = 2 ^ m.log2 * 2 ^ e := by rw [zpow_add₀ two_ne_zero, zpow_natCast]
      _ ≤ m * 2 ^ e := by gcongr

/-- The bits of what is rounded, by the mantissa that is found in the unit `t`. -/
theorem toNat_pack_roundWithAccuracy {m : Nat} {e t : ℤ} {em : ExtendedMantissa}
    (hfirst : shiftToTargetExponent Format.binary64 m e .exact = (em, t)) (ht : leastExponent ≤ t)
    (hle : em.roundedMantissa ≤ 2 * leadingBit)
    (hnormal : leastExponent < t → leadingBit ≤ em.roundedMantissa) :
    (UnpackedFloat.pack Format.binary64
      (roundWithAccuracy Format.binary64 .positive m e .exact)).toNat =
      min ((t - leastExponent).toNat * leadingBit + em.roundedMantissa) infinityMagnitude := by
  rw [roundWithAccuracy, hfirst]
  dsimp only
  rw [shiftToTargetExponent_of_le hle ht]
  generalize em.roundedMantissa = r at hle hnormal ⊢
  by_cases hlt : r < 2 * leadingBit
  · rw [if_pos hlt]
    dsimp only
    rcases Nat.eq_zero_or_pos r with rfl | hpos
    · obtain rfl : t = leastExponent := by
        by_contra hne
        exact absurd (hnormal (lt_of_le_of_ne ht (Ne.symm hne))) (by decide)
      rw [dif_pos rfl, sub_self]
      decide
    · rw [dif_neg hpos.ne']
      exact toNat_pack ⟨hpos, hlt, ht, hnormal, rfl⟩
  · obtain rfl : r = 2 * leadingBit := Nat.le_antisymm hle (Nat.le_of_not_lt hlt)
    have hnext : Dyadic.IsCanonical ⟨leadingBit, t + 1⟩
        ((t - leastExponent).toNat * leadingBit + 2 * leadingBit) := by
      have hplace : (t + 1 - leastExponent).toNat = (t - leastExponent).toNat + 1 := by omega
      refine ⟨leadingBit_pos, ?_, ?_, fun _ => le_refl _, ?_⟩
      · show leadingBit < 2 * leadingBit
        decide
      · show leastExponent ≤ t + 1
        omega
      · show (t + 1 - leastExponent).toNat * leadingBit + leadingBit = _
        rw [hplace]
        ring
    rw [if_neg hlt]
    dsimp only
    rw [dif_neg leadingBit_pos.ne']
    exact toNat_pack hnext

/-- What is rounded is the number nearest to the exact value. -/
theorem toNat_pack_round {m num den : Nat} {e : ℤ} (hm : 0 < m) (hden : 0 < den)
    (h : (num : ℚ) / den = m * 2 ^ e) :
    (UnpackedFloat.pack Format.binary64 (UnpackedFloat.round Format.binary64 .positive m e)).toNat =
      nearestMagnitude num den := by
  have hvalue : (0 : ℚ) < m * 2 ^ e := by positivity
  have hnum : 0 < num := by
    by_contra hzero
    rw [← h, Nat.eq_zero_of_not_pos hzero, Nat.cast_zero, zero_div] at hvalue
    exact lt_irrefl 0 hvalue
  have hlog : log2Div num den = m.log2 + e := by
    have hlow : (2 : ℚ) ^ m.log2 ≤ m := by exact_mod_cast Nat.log2_self_le hm.ne'
    have hhigh : (m : ℚ) < 2 ^ (m.log2 + 1) := by exact_mod_cast Nat.lt_log2_self
    apply log2Div_eq hnum hden
    · rw [h, zpow_add₀ two_ne_zero, zpow_natCast]
      gcongr
    · rw [h, add_right_comm, zpow_add₀ two_ne_zero]
      have hpow : (2 : ℚ) ^ ((m.log2 : ℤ) + 1) = 2 ^ (m.log2 + 1) := by exact_mod_cast rfl
      rw [hpow]
      gcongr
  obtain ⟨hhigh, hlow⟩ := bounds_target hm e
  rw [nearestMagnitude, if_neg hnum.ne', hlog]
  dsimp only
  rw [UnpackedFloat.round, targetExponent_eq]
  dsimp only [decreaseExponent]
  generalize ht : max ((m.log2 : ℤ) + e - 52) leastExponent = t at hhigh hlow ⊢
  -- The mantissa is first moved up so that its exponent is not above the unit, which leaves the
  -- value as it is.
  generalize hk : (e - t).toNat = k
  obtain ⟨hmeasures, hexponent⟩ := measures_shiftToExponent (m <<< k) (show e - k ≤ t by omega)
  rw [shiftLeft_mul_zpow] at hmeasures
  have hround : roundDiv (num <<< (-t).toNat) (den <<< t.toNat) =
      (shiftToExponent (m <<< k) (e - k) .exact t).1.roundedMantissa := by
    apply roundDiv_eq
    · rw [Nat.shiftLeft_eq]
      positivity
    · rw [shift_div, h]
      exact hmeasures.isNearest
  have hfirst : shiftToTargetExponent Format.binary64 (m <<< k) (e - k) .exact =
      ((shiftToExponent (m <<< k) (e - k) .exact t).1, t) := by
    have hsame : ((m.log2 + k : Nat) : ℤ) + (e - k) - 52 = m.log2 + e - 52 := by omega
    rw [shiftToTargetExponent, targetExponent_eq, log2_shiftLeft hm, hsame, ht]
    exact Prod.ext rfl hexponent
  rw [hround]
  exact toNat_pack_roundWithAccuracy hfirst (ht ▸ le_max_right _ _) (hmeasures.isNearest.le hhigh)
    fun hleast =>
    hmeasures.isNearest.ge (hlow hleast)

/-! ## Sums -/

theorem Dyadic.value_zero : (ofMagnitude 0).value = 0 := by
  rw [ofMagnitude, if_pos leadingBit_pos, value, Nat.cast_zero, zero_mul]

/-- A quotient that is the value of a number is nearest to that number. -/
theorem nearestMagnitude_of_eq {b num den : Nat} (hb : b < infinityMagnitude) (hden : 0 < den)
    (h : (num : ℚ) / den = (Dyadic.ofMagnitude b).value) : nearestMagnitude num den = b := by
  have hden' : (den : ℚ) ≠ 0 := Nat.cast_ne_zero.mpr hden.ne'
  rcases Nat.eq_zero_or_pos b with rfl | hpos
  · rw [Dyadic.value_zero, div_eq_zero_iff, Nat.cast_eq_zero] at h
    rw [nearestMagnitude, if_pos (h.resolve_right hden')]
  · have hvalue : (0 : ℚ) < (Dyadic.ofMagnitude b).value := by
      have hmantissa := (Dyadic.isCanonical_ofMagnitude hpos).pos
      rw [Dyadic.value]
      positivity
    have hnum : 0 < num := by
      by_contra hzero
      rw [← h, Nat.eq_zero_of_not_pos hzero, Nat.cast_zero, zero_div] at hvalue
      exact lt_irrefl 0 hvalue
    apply nearestMagnitude_of_holds hpos hb hnum hden
    rw [h]
    exact Basin.holds_value hpos

theorem toNat_pack_unpack {b : Nat} (h : b ≤ infinityMagnitude) :
    (UnpackedFloat.pack Format.binary64 (ofMagnitude false b).toModel.unpack).toNat = b := by
  have hbits : (UInt64.ofNat b).toBitVec.toNat = b := toNat_ofNat h
  have hmod : (UInt64.ofNat b).toBitVec.toNat % signBit ≤ infinityMagnitude :=
    (Nat.mod_le ..).trans (hbits.trans_le h)
  rw [unpack_toModel h, pack_unpack (valid_of_le hmod), hbits]

/-- Two mantissas are added in the smaller of their units. -/
theorem add_finite {m m' : Nat} {e e' : ℤ} (hm : 0 < m) (hm' : 0 < m') :
    UnpackedFloat.add Format.binary64 (.finite .positive m e hm) (.finite .positive m' e' hm') =
      UnpackedFloat.round Format.binary64 .positive
        (m <<< (e - min e e').toNat + m' <<< (e' - min e e').toNat) (min e e') := by
  generalize hsum : m <<< (e - min e e').toNat + m' <<< (e' - min e e').toNat = sum
  have hpos : 0 < sum := by
    rw [← hsum, Nat.shiftLeft_eq]
    positivity
  have hcast : ((m <<< (e - min e e').toNat : Nat) : ℤ) +
      (m' <<< (e' - min e e').toNat : Nat) = sum := by
    exact_mod_cast hsum
  have hcompare : Ord.compare (sum : ℤ) 0 = .gt := compare_gt_iff_gt.mpr (by omega)
  show UnpackedFloat.normalize Format.binary64
    ((m <<< (e - min e e').toNat : Nat) + (m' <<< (e' - min e e').toNat : Nat)) (min e e')
      .positive = _
  rw [hcast, UnpackedFloat.normalize, hcompare, Int.toNat_natCast]

/-- The sum of two numbers is the number nearest to the sum of their values. -/
theorem ofMagnitude_add {b c num den : Nat} (hb : b < infinityMagnitude)
    (hc : c < infinityMagnitude) (hden : 0 < den)
    (h : (num : ℚ) / den = (Dyadic.ofMagnitude b).value + (Dyadic.ofMagnitude c).value) :
    ofMagnitude false b + ofMagnitude false c = ofQuotient num den := by
  apply eq_ofMagnitude
  show (UnpackedFloat.pack Format.binary64
      (UnpackedFloat.add Format.binary64 (ofMagnitude false b).toModel.unpack
    (ofMagnitude false c).toModel.unpack)).toNat = _
  rcases unpack_cases hb.le with ⟨rfl, hx⟩ | ⟨-, hm, hx⟩ | ⟨htop, -⟩
  · rw [Dyadic.value_zero, zero_add] at h
    rw [nearestMagnitude_of_eq hc hden h, hx]
    rcases unpack_cases hc.le with ⟨rfl, hy⟩ | ⟨-, hm', hy⟩ | ⟨htop, -⟩
    · rw [hy]
      decide
    · have hsame := toNat_pack_unpack hc.le
      rw [hy] at hsame ⊢
      exact hsame
    · exact absurd htop hc.ne
  · rcases unpack_cases hc.le with ⟨rfl, hy⟩ | ⟨-, hm', hy⟩ | ⟨htop, -⟩
    · rw [Dyadic.value_zero, add_zero] at h
      have hsame := toNat_pack_unpack hb.le
      rw [nearestMagnitude_of_eq hb hden h, hy]
      rw [hx] at hsame ⊢
      exact hsame
    · have hunit : ∀ (m : Nat) {e t : ℤ}, t ≤ e →
          ((m <<< (e - t).toNat : Nat) : ℚ) * 2 ^ t = m * 2 ^ e := by
        intro m e t hle
        have hshift : e - ((e - t).toNat : Nat) = t := by omega
        rw [← shiftLeft_mul_zpow m (e - t).toNat e, hshift]
      rw [hx, hy, add_finite]
      apply toNat_pack_round _ hden
      · rw [h, Nat.cast_add, add_mul, hunit _ (min_le_left _ _), hunit _ (min_le_right _ _)]
        rfl
      · rw [Nat.shiftLeft_eq]
        positivity
    · exact absurd htop hc.ne
  · exact absurd htop hb.ne

/-- Nothing that is added to an infinite number makes a difference. -/
theorem ofMagnitude_add_infinity {b : Nat} (hb : b ≤ infinityMagnitude) :
    ofMagnitude false b + ofMagnitude false infinityMagnitude =
      ofMagnitude false infinityMagnitude := by
  have hinfinity : (ofMagnitude false infinityMagnitude).toModel.unpack = .infinity .positive := by
    rcases unpack_cases (le_refl infinityMagnitude) with ⟨hzero, -⟩ | ⟨hlt, -⟩ | ⟨-, heq⟩
    · exact absurd hzero (by decide)
    · exact absurd hlt.2 (lt_irrefl _)
    · exact heq
  have hadd : UnpackedFloat.add Format.binary64 (ofMagnitude false b).toModel.unpack
      (.infinity .positive) =
      .infinity .positive := by
    rcases unpack_cases hb with ⟨-, heq⟩ | ⟨-, hm, heq⟩ | ⟨-, heq⟩ <;> rw [heq] <;> rfl
  apply eq_ofMagnitude
  show (UnpackedFloat.pack Format.binary64
      (UnpackedFloat.add Format.binary64 (ofMagnitude false b).toModel.unpack
    (ofMagnitude false infinityMagnitude).toModel.unpack)).toNat = _
  rw [hinfinity, hadd]
  decide

end LineBasic.Number
