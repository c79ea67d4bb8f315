import LineBasic.Proofs.Number.Nearest
import Mathlib.Tactic.LinearCombination

/-!
# Shortest decimals are read back

The search for the shortest decimal of a magnitude ends with one in its basin (`holds_shortest`),
and a decimal in the basin of a magnitude is read as that magnitude
(`Decimal.toMagnitude_of_holds`).
-/

namespace LineBasic.Number

/-- The exact value of a decimal. -/
def Decimal.value (d : Decimal) : ℚ :=
  d.digits * 10 ^ d.exponent

theorem Decimal.digits_pos {d : Decimal} (h : 0 < d.value) : 0 < d.digits := by
  by_contra hzero
  rw [value, Nat.eq_zero_of_not_pos hzero, Nat.cast_zero, zero_mul] at h
  exact absurd h (lt_irrefl 0)

/-! ## The shortest decimal -/

namespace Basin

variable {s : Basin}

theorem shiftLeft_pow_cast (i j : Nat) : ((Nat.pow 10 i <<< j : Nat) : ℚ) = 10 ^ i * 2 ^ j := by
  rw [shiftLeft_cast, Nat.pow_eq]
  push_cast
  rfl

/-- A point of a grid is tested for whether it lies in the basin. -/
theorem contains_iff (s : Basin) (grid : ℤ) (point : Nat) :
    s.contains (Nat.pow 10 (-grid).toNat <<< s.exponent.toNat)
      (Nat.pow 10 grid.toNat <<< (-s.exponent).toNat) point =
      true ↔ s.Holds (point * 10 ^ grid) := by
  have hnum := shiftLeft_pow_cast (-grid).toNat s.exponent.toNat
  have hden := shiftLeft_pow_cast grid.toNat (-s.exponent).toNat
  generalize Nat.pow 10 (-grid).toNat <<< s.exponent.toNat = num at hnum ⊢
  generalize Nat.pow 10 grid.toNat <<< (-s.exponent).toNat = den at hden ⊢
  have hpos : (0 : ℚ) < den / 10 ^ grid := by
    rw [hden]
    positivity
  have hunit : ∀ n : Nat, (n : ℚ) * 2 ^ s.exponent * (den / 10 ^ grid) = (n * num : Nat) := by
    intro n
    push_cast
    rw [hnum, hden, zpow_eq_div 2, zpow_eq_div 10]
    field_simp
  have hpoint : (point : ℚ) * 10 ^ grid * (den / 10 ^ grid) = (point * den : Nat) := by
    push_cast
    field_simp
  -- All comparisons are multiplied by the same positive number.
  have hbelow : ∀ n : Nat, (n : ℚ) * 2 ^ s.exponent < point * 10 ^ grid ↔
      n * num < point * den := by
    intro n
    rw [← mul_lt_mul_iff_left₀ hpos, hunit, hpoint, Nat.cast_lt]
  have habove : ∀ n : Nat, (point : ℚ) * 10 ^ grid < n * 2 ^ s.exponent ↔
      point * den < n * num := by
    intro n
    rw [← mul_lt_mul_iff_left₀ hpos, hunit, hpoint, Nat.cast_lt]
  have heq : ∀ n : Nat, (n : ℚ) * 2 ^ s.exponent = point * 10 ^ grid ↔ n * num = point * den := by
    intro n
    rw [← mul_left_inj' hpos.ne', hunit, hpoint, Nat.cast_inj]
  simp only [contains, Holds, hbelow, habove, heq, eq_comm (a := (point : ℚ) * 10 ^ grid),
    Bool.and_eq_true, Bool.or_eq_true, decide_eq_true_eq, eq_comm (a := point * den)]

theorem holds_of_nearestOn? {grid : ℤ} {n : Nat} (h : s.nearestOn? grid = some n) :
    s.Holds (n * 10 ^ grid) := by
  rw [← contains_iff]
  unfold nearestOn? at h
  dsimp only at h
  split at h
  · rename_i hbelow
    split at h
    · rename_i habove
      rw [← Option.some.inj h]
      exact (Bool.and_eq_true_iff.mp habove).1
    · rwa [← Option.some.inj h]
  · split at h
    · rename_i habove
      rwa [← Option.some.inj h]
    · cases h

/-- Whatever the search hits lies in the basin. -/
theorem holds_search {exact : Decimal} (h : s.Holds exact.value) (count : Nat) (grid : ℤ) :
    s.Holds (s.search exact count grid).value := by
  induction count generalizing grid with
  | zero => exact h
  | succ count ih =>
    unfold search
    split
    · rename_i n hn
      exact holds_of_nearestOn? hn
    · exact ih (grid - 1)

end Basin

theorem Dyadic.value_toDecimal (d : Dyadic) : d.toDecimal.value = d.value := by
  unfold toDecimal
  split
  · rename_i h
    rw [Decimal.value, Dyadic.value, zpow_zero, mul_one, shiftLeft_cast, ← zpow_natCast,
      Int.toNat_of_nonneg h]
  · rename_i h
    have hten : (10 : ℚ) ^ d.exponent = 5 ^ d.exponent * 2 ^ d.exponent := by
      rw [← mul_zpow]
      norm_num
    have hfive : ((Nat.pow 5 (-d.exponent).toNat : Nat) : ℚ) * 5 ^ d.exponent = 1 := by
      rw [Nat.pow_eq]
      push_cast
      rw [← zpow_natCast, Int.toNat_of_nonneg (by omega), ← zpow_add₀ (by norm_num)]
      simp
    rw [Decimal.value, Dyadic.value]
    push_cast
    rw [hten]
    linear_combination (d.mantissa : ℚ) * 2 ^ d.exponent * hfive

/-- A number lies in its own basin. -/
theorem Basin.holds_value {b : Nat} (hb : 0 < b) :
    (Basin.ofMagnitude b).Holds (Dyadic.ofMagnitude b).value := by
  have hpos := (Dyadic.isCanonical_ofMagnitude hb).pos
  unfold Basin.ofMagnitude Basin.Holds
  generalize Dyadic.ofMagnitude b = d at hpos ⊢
  have hunit : d.value = (4 * d.mantissa : Nat) * 2 ^ (d.exponent - 2) := by
    rw [Dyadic.value, zpow_sub₀ two_ne_zero]
    push_cast
    ring
  have htwo : (0 : ℚ) < 2 ^ (d.exponent - 2) := by positivity
  rw [hunit]
  refine ⟨.inl ?_, .inl ?_⟩
  · apply mul_lt_mul_of_pos_right _ htwo
    apply Nat.cast_lt.mpr
    dsimp only
    split <;> omega
  · apply mul_lt_mul_of_pos_right _ htwo
    apply Nat.cast_lt.mpr
    dsimp only
    omega

/-- The shortest decimal of a number lies in its basin. -/
theorem holds_shortest {b : Nat} (hb : 0 < b) : (Basin.ofMagnitude b).Holds (shortest b).value := by
  apply Basin.holds_search
  rw [Dyadic.value_toDecimal]
  exact Basin.holds_value hb

/-! ## Reading it back -/

theorem two_pow_lt_ten_pow {n : Nat} (hn : n ≠ 0) : (2 : ℚ) ^ (3 * n) < 10 ^ n := by
  rw [pow_mul]
  exact pow_lt_pow_left₀ (by norm_num) (by norm_num) hn

/-- What lies in a basin is neither too small nor too large for the bounds of decimals. -/
theorem Basin.Holds.bounds {b : Nat} (hb : 0 < b) (hlt : b < infinityMagnitude) {q : ℚ}
    (h : (Basin.ofMagnitude b).Holds q) : (10 : ℚ) ^ (-400 : ℤ) < q ∧ q < 10 ^ (400 : ℤ) := by
  obtain ⟨⟨hlow, hhigh⟩, -⟩ := h.isNearest hb
  have hcanonical := Dyadic.isCanonical_ofMagnitude hb
  generalize Dyadic.ofMagnitude b = d at hlow hhigh hcanonical
  obtain ⟨hpos, hm, hleast, -, rfl⟩ := hcanonical
  have hexponent : d.exponent ≤ 972 := by
    have hsteps : (d.exponent - leastExponent).toNat < 2047 :=
      Nat.lt_of_mul_lt_mul_right (Nat.lt_of_le_of_lt (Nat.le_add_right _ _) hlt)
    rw [leastExponent] at hsteps
    omega
  have htwo : (0 : ℚ) < 2 ^ d.exponent := by positivity
  have hpos' : (1 : ℚ) ≤ d.mantissa := by exact_mod_cast hpos
  have hm' : (d.mantissa : ℚ) + 1 ≤ 2 ^ 53 := by
    rw [leadingBit_eq] at hm
    exact_mod_cast hm
  have hge : 1 / 2 ≤ q / 2 ^ d.exponent := by rcases hlow with h | ⟨-, h⟩ <;> linarith
  have hle : q / 2 ^ d.exponent ≤ 2 ^ 53 := by rcases hhigh with h | ⟨-, h⟩ <;> linarith
  rw [le_div_iff₀ htwo] at hge
  rw [div_le_iff₀ htwo] at hle
  rw [leastExponent] at hleast
  constructor
  · calc (10 : ℚ) ^ (-400 : ℤ) = (10 ^ 400)⁻¹ := by rw [zpow_neg, zpow_ofNat]
      _ < (2 ^ (3 * 400))⁻¹ := inv_strictAnti₀ (by positivity) (two_pow_lt_ten_pow (by decide))
      _ = 2 ^ (-1200 : ℤ) := by rw [zpow_neg, zpow_ofNat]
      _ ≤ 2 ^ (d.exponent - 1) := zpow_le_zpow_right₀ one_le_two (by omega)
      _ = 1 / 2 * 2 ^ d.exponent := by rw [zpow_sub₀ two_ne_zero, zpow_one]; ring
      _ ≤ q := hge
  · calc q ≤ 2 ^ 53 * 2 ^ d.exponent := hle
      _ = 2 ^ (53 + d.exponent) := by rw [zpow_add₀ two_ne_zero, zpow_ofNat]
      _ ≤ 2 ^ (1200 : ℤ) := zpow_le_zpow_right₀ one_le_two (by omega)
      _ = 2 ^ (3 * 400) := by rw [zpow_ofNat]
      _ < 10 ^ 400 := two_pow_lt_ten_pow (by decide)
      _ = 10 ^ (400 : ℤ) := by rw [zpow_ofNat]

/-- A number has fewer digits than a third of its bits, and one. -/
theorem lt_ten_pow_log2 (n : Nat) : n < 10 ^ (n.log2 / 3 + 1) := by
  calc n < 2 ^ (n.log2 + 1) := Nat.lt_log2_self
    _ ≤ 2 ^ (3 * (n.log2 / 3 + 1)) := Nat.pow_le_pow_right (by decide) (by omega)
    _ = 8 ^ (n.log2 / 3 + 1) := by rw [Nat.pow_mul]
    _ ≤ 10 ^ (n.log2 / 3 + 1) := Nat.pow_le_pow_left (by decide) _

/-- A decimal in the basin of a number is read as that number. -/
theorem Decimal.toMagnitude_of_holds {b : Nat} (hb : 0 < b) (hlt : b < infinityMagnitude)
    {d : Decimal} (h : (Basin.ofMagnitude b).Holds d.value) : d.toMagnitude = b := by
  obtain ⟨hlow, hhigh⟩ := h.bounds hb hlt
  have hten : (0 : ℚ) < 10 ^ d.exponent := by positivity
  have hpos : 0 < d.digits := digits_pos (lt_trans (by positivity) hlow)
  have hupper : d.exponent < 400 := by
    have hone : (1 : ℚ) ≤ d.digits := by exact_mod_cast hpos
    apply (zpow_lt_zpow_iff_right₀ (by norm_num : (1 : ℚ) < 10)).mp
    calc (10 : ℚ) ^ d.exponent ≤ d.digits * 10 ^ d.exponent := le_mul_of_one_le_left hten.le hone
      _ < 10 ^ (400 : ℤ) := hhigh
  have hlower : -400 < d.exponent + (d.digits.log2 / 3 + 1 : Nat) := by
    have hdigits : (d.digits : ℚ) < 10 ^ (d.digits.log2 / 3 + 1) := by
      exact_mod_cast lt_ten_pow_log2 d.digits
    apply (zpow_lt_zpow_iff_right₀ (by norm_num : (1 : ℚ) < 10)).mp
    calc (10 : ℚ) ^ (-400 : ℤ) < d.digits * 10 ^ d.exponent := hlow
      _ ≤ 10 ^ (d.digits.log2 / 3 + 1) * 10 ^ d.exponent := by gcongr
      _ = 10 ^ (d.exponent + (d.digits.log2 / 3 + 1 : Nat)) := by
          rw [zpow_add₀ (by norm_num), zpow_natCast, mul_comm]
  have hvalue : d.value =
      ((d.digits * Nat.pow 10 d.exponent.toNat : Nat) : ℚ) /
        (Nat.pow 10 (-d.exponent).toNat : Nat) := by
    rw [value, zpow_eq_div]
    simp only [Nat.pow_eq]
    push_cast
    ring
  rw [hvalue] at h
  have hupper' : ¬ exponentBounds.1 < d.exponent := not_lt.mpr hupper.le
  have hlower' : ¬ d.exponent + (d.digits.log2 / 3 + 1 : Nat) < exponentBounds.2 :=
    not_lt.mpr hlower.le
  rw [toMagnitude, if_neg hpos.ne', if_neg hupper', if_neg hlower']
  exact nearestMagnitude_of_holds hb hlt (Nat.mul_pos hpos (Nat.pow_pos (by decide)))
    (Nat.pow_pos (by decide)) h

end LineBasic.Number
