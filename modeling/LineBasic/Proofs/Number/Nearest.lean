import LineBasic.Number.Shortest
import LineBasic.Proofs.Number.Magnitude
import Mathlib.Algebra.Order.Field.Power
import Mathlib.Data.Rat.Floor

/-!
# The number nearest to a fraction

Rounding a quotient gives a whole number that is nearest to it, and an even one where two are
(`roundDiv_eq`). A fraction in the basin of a magnitude, which ends half-way to the neighbours of
its number, is rounded to that magnitude (`nearestMagnitude_of_holds`).
-/

namespace LineBasic.Number

/-! ## Powers and quotients -/

/-- A power with a whole exponent as a quotient of powers. -/
theorem zpow_eq_div (a : ℚ) (e : ℤ) : a ^ e = a ^ e.toNat / a ^ (-e).toNat := by
  rcases le_total 0 e with h | h
  · rw [Int.toNat_eq_zero.mpr (by omega : -e ≤ 0), pow_zero, div_one, ← zpow_natCast,
      Int.toNat_of_nonneg h]
  · rw [Int.toNat_eq_zero.mpr h, pow_zero, one_div, ← zpow_natCast, Int.toNat_of_nonneg (by omega),
      zpow_neg, inv_inv]

theorem shiftLeft_cast (n k : Nat) : ((n <<< k : Nat) : ℚ) = n * 2 ^ k := by
  rw [Nat.shiftLeft_eq]
  push_cast
  rfl

/-- Shifting numerator or denominator divides a quotient by a power of two. -/
theorem shift_div (num den : Nat) (e : ℤ) :
    ((num <<< (-e).toNat : Nat) : ℚ) / (den <<< e.toNat : Nat) = num / den / 2 ^ e := by
  rw [shiftLeft_cast, shiftLeft_cast, zpow_eq_div]
  field_simp

/-- A whole number is the nearest one to a quotient, an even one also in the middle between two. -/
structure IsNearest (m : Nat) (q : ℚ) : Prop where
  low : (m : ℚ) - 1 / 2 < q ∨ m % 2 = 0 ∧ (m : ℚ) - 1 / 2 = q
  high : q < m + 1 / 2 ∨ m % 2 = 0 ∧ q = m + 1 / 2

theorem roundDiv_eq {num den m : Nat} (hden : 0 < den) (h : IsNearest m (num / den)) :
    roundDiv num den = m := by
  have hden' : (0 : ℚ) < den := by exact_mod_cast hden
  have hsplit : (num : ℚ) / den = (num / den : Nat) + (num % den : Nat) / den := by
    field_simp
    exact_mod_cast (Nat.div_add_mod num den).symm
  have hmod : ((num % den : Nat) : ℚ) / den < 1 := by
    rw [div_lt_one hden']
    exact_mod_cast Nat.mod_lt num hden
  have hmod' : (0 : ℚ) ≤ ((num % den : Nat) : ℚ) / den := by positivity
  rw [hsplit] at h
  obtain ⟨hlow, hhigh⟩ := h
  have hlow' : (m : ℚ) ≤ (num / den : Nat) + (num % den : Nat) / den + 1 / 2 := by
    rcases hlow with hlow | ⟨-, hlow⟩ <;> linarith
  have hhigh' : ((num / den : Nat) : ℚ) + (num % den : Nat) / den ≤ m + 1 / 2 := by
    rcases hhigh with hhigh | ⟨-, hhigh⟩ <;> linarith
  unfold roundDiv
  dsimp only
  split
  · rename_i hbelow
    have hfraction : ((num % den : Nat) : ℚ) / den < 1 / 2 := by
      rw [div_lt_div_iff₀ hden' two_pos]
      exact_mod_cast (by omega : num % den * 2 < 1 * den)
    have hle : m < num / den + 1 := by
      exact_mod_cast (by linarith : (m : ℚ) < (num / den : Nat) + 1)
    have hge : num / den < m + 1 := by
      exact_mod_cast (by linarith : ((num / den : Nat) : ℚ) < m + 1)
    omega
  · split
    · rename_i habove
      have hfraction : 1 / 2 < ((num % den : Nat) : ℚ) / den := by
        rw [div_lt_div_iff₀ two_pos hden']
        exact_mod_cast (by omega : 1 * den < num % den * 2)
      have hle : m < num / den + 2 := by
        exact_mod_cast (by linarith : (m : ℚ) < (num / den : Nat) + 2)
      have hge : num / den < m := by exact_mod_cast (by linarith : ((num / den : Nat) : ℚ) < m)
      omega
    · -- In the middle the nearest number is one of two, and it is even.
      have hfraction : ((num % den : Nat) : ℚ) / den = 1 / 2 := by
        rw [div_eq_div_iff hden'.ne' two_ne_zero]
        exact_mod_cast (by omega : num % den * 2 = 1 * den)
      have hle : m < num / den + 2 := by
        exact_mod_cast (by linarith : (m : ℚ) < (num / den : Nat) + 2)
      have hge : num / den < m + 1 := by
        exact_mod_cast (by linarith : ((num / den : Nat) : ℚ) < m + 1)
      have heven : m % 2 = 0 := by
        rcases (by omega : m = num / den ∨ m = num / den + 1) with hm | hm
        · rcases hhigh with hhigh | ⟨heven, -⟩
          · exfalso
            rw [hfraction, hm] at hhigh
            linarith
          · exact heven
        · rcases hlow with hlow | ⟨heven, -⟩
          · exfalso
            rw [hfraction, hm] at hlow
            push_cast at hlow
            linarith
          · exact heven
      omega

/-- A positive quotient lies between the power of two that it is said to and the next one. -/
theorem log2Div_spec {num den : Nat} (hnum : 0 < num) (hden : 0 < den) :
    (2 : ℚ) ^ log2Div num den ≤ num / den ∧ (num : ℚ) / den < 2 ^ (log2Div num den + 1) := by
  have hnum' : (0 : ℚ) < num := by exact_mod_cast hnum
  have hden' : (0 : ℚ) < den := by exact_mod_cast hden
  have hnumLow : (2 : ℚ) ^ num.log2 ≤ num := by exact_mod_cast Nat.log2_self_le hnum.ne'
  have hnumHigh : (num : ℚ) < 2 ^ (num.log2 + 1) := by exact_mod_cast Nat.lt_log2_self
  have hdenLow : (2 : ℚ) ^ den.log2 ≤ den := by exact_mod_cast Nat.log2_self_le hden.ne'
  have hdenHigh : (den : ℚ) < 2 ^ (den.log2 + 1) := by exact_mod_cast Nat.lt_log2_self
  have hcompare : ∀ e : ℤ, den <<< e.toNat ≤ num <<< (-e).toNat ↔ (2 : ℚ) ^ e ≤ num / den := by
    intro e
    have hshift := shift_div num den e
    have hpos : (0 : ℚ) < (den <<< e.toNat : Nat) := by
      rw [shiftLeft_cast]
      positivity
    have htwo : (0 : ℚ) < 2 ^ e := by positivity
    rw [← one_le_div htwo, ← hshift, one_le_div hpos, Nat.cast_le]
  have hlow : (2 : ℚ) ^ ((num.log2 : ℤ) - den.log2 - 1) < num / den := by
    calc (2 : ℚ) ^ ((num.log2 : ℤ) - den.log2 - 1) = 2 ^ num.log2 / 2 ^ (den.log2 + 1) := by
          rw [sub_sub, zpow_sub₀ two_ne_zero, zpow_natCast]
          exact_mod_cast rfl
      _ ≤ num / 2 ^ (den.log2 + 1) := by gcongr
      _ < num / den := by gcongr
  have hhigh : (num : ℚ) / den < 2 ^ ((num.log2 : ℤ) - den.log2 + 1) := by
    calc (num : ℚ) / den < 2 ^ (num.log2 + 1) / den := by gcongr
      _ ≤ 2 ^ (num.log2 + 1) / 2 ^ den.log2 := by gcongr
      _ = 2 ^ ((num.log2 : ℤ) - den.log2 + 1) := by
          rw [sub_add_eq_add_sub, zpow_sub₀ two_ne_zero, zpow_natCast]
          exact_mod_cast rfl
  unfold log2Div
  dsimp only
  split
  · rename_i hle
    exact ⟨(hcompare _).mp hle, hhigh⟩
  · rename_i hle
    refine ⟨hlow.le, ?_⟩
    rw [sub_add_cancel]
    exact not_le.mp fun h => hle ((hcompare _).mpr h)

/-! ## The number nearest to a quotient -/

/-- The exact value of a dyadic number. -/
def Dyadic.value (d : Dyadic) : ℚ :=
  d.mantissa * 2 ^ d.exponent

/-- What the dyadic number of a positive magnitude looks like. -/
structure Dyadic.IsCanonical (d : Dyadic) (b : Nat) : Prop where
  pos : 0 < d.mantissa
  lt : d.mantissa < 2 * leadingBit
  least_le : leastExponent ≤ d.exponent
  le : leastExponent < d.exponent → leadingBit ≤ d.mantissa
  magnitude_eq : (d.exponent - leastExponent).toNat * leadingBit + d.mantissa = b

theorem Dyadic.isCanonical_ofMagnitude {b : Nat} (h : 0 < b) : (ofMagnitude b).IsCanonical b := by
  have hleading := leadingBit_eq
  unfold ofMagnitude
  split
  · exact ⟨h, by simp only; omega, le_refl _, fun hlt => absurd hlt (lt_irrefl _), by simp⟩
  · constructor <;> simp only [hleading, leastExponent] at * <;> omega

/-- A quotient lies in a basin. -/
def Basin.Holds (s : Basin) (q : ℚ) : Prop :=
  (s.low * 2 ^ s.exponent < q ∨ s.closed = true ∧ s.low * 2 ^ s.exponent = q) ∧
    (q < s.high * 2 ^ s.exponent ∨ s.closed = true ∧ q = s.high * 2 ^ s.exponent)

/-- The mantissa of a number is the nearest one to whatever lies in its basin, counted in its power
of two. Below a power of two the basin is narrower. -/
theorem Basin.Holds.isNearest {b : Nat} (hb : 0 < b) {q : ℚ} (h : (Basin.ofMagnitude b).Holds q) :
    IsNearest (Dyadic.ofMagnitude b).mantissa (q / 2 ^ (Dyadic.ofMagnitude b).exponent) ∧
      ((Dyadic.ofMagnitude b).mantissa = leadingBit →
        leastExponent < (Dyadic.ofMagnitude b).exponent →
        (leadingBit : ℚ) - 1 / 4 ≤ q / 2 ^ (Dyadic.ofMagnitude b).exponent) := by
  have hpos := (Dyadic.isCanonical_ofMagnitude hb).pos
  unfold Basin.ofMagnitude Basin.Holds at h
  generalize Dyadic.ofMagnitude b = d at h hpos ⊢
  obtain ⟨m, e⟩ := d
  dsimp only at h hpos ⊢
  have htwo : (0 : ℚ) < 2 ^ e := by positivity
  obtain ⟨x, rfl⟩ : ∃ x, q = x * 2 ^ e := ⟨q / 2 ^ e, by field_simp⟩
  have hunit : ∀ n : Nat, (n : ℚ) * 2 ^ (e - 2) = n / 4 * 2 ^ e := by
    intro n
    rw [zpow_sub₀ two_ne_zero]
    ring
  rw [mul_div_cancel_right₀ x htwo.ne']
  simp only [hunit, mul_lt_mul_iff_left₀ htwo, mul_left_inj' htwo.ne', decide_eq_true_eq] at h
  obtain ⟨hlow, hhigh⟩ := h
  push_cast at hhigh
  have hnarrow : m = leadingBit → leastExponent < e → (m : ℚ) - 1 / 4 ≤ x := by
    intro hm he
    rw [if_pos ⟨hm, he⟩, Nat.cast_sub (by omega)] at hlow
    push_cast at hlow
    rcases hlow with hlow | ⟨-, hlow⟩ <;> linarith
  refine ⟨⟨?_, ?_⟩, fun hm he => hm ▸ hnarrow hm he⟩
  · by_cases hm : m = leadingBit ∧ leastExponent < e
    · have hle := hnarrow hm.1 hm.2
      exact .inl (by linarith)
    · rw [if_neg hm, Nat.cast_sub (by omega)] at hlow
      push_cast at hlow
      rcases hlow with hlow | ⟨heven, hlow⟩
      · exact .inl (by linarith)
      · exact .inr ⟨heven, by linarith⟩
  · rcases hhigh with hhigh | ⟨heven, hhigh⟩
    · exact .inl (by linarith)
    · exact .inr ⟨heven, by linarith⟩

/-- The exponent that a quotient near to a dyadic number is rounded with is the one of the number.
Just below a power of two it is one less. -/
theorem max_log2_eq {m : Nat} {e l : ℤ} {q : ℚ} (hlow : (2 : ℚ) ^ l ≤ q) (hhigh : q < 2 ^ (l + 1))
    (hm : m < 2 * leadingBit) (hleast : leastExponent ≤ e)
    (hnormal : leastExponent < e → leadingBit ≤ m) (hnearest : IsNearest m (q / 2 ^ e))
    (hnarrow : m = leadingBit → leastExponent < e → (leadingBit : ℚ) - 1 / 4 ≤ q / 2 ^ e) :
    max (l - 52) leastExponent = e ∨
      max (l - 52) leastExponent = e - 1 ∧ m = leadingBit ∧ leastExponent < e ∧
        q / 2 ^ e < leadingBit := by
  have htwo : (0 : ℚ) < 2 ^ e := by positivity
  have hleading : (leadingBit : ℚ) = 2 ^ (52 : ℤ) := by norm_num [leadingBit_eq]
  obtain ⟨x, rfl⟩ : ∃ x, q = x * 2 ^ e := ⟨q / 2 ^ e, by field_simp⟩
  rw [mul_div_cancel_right₀ x htwo.ne'] at hnearest hnarrow ⊢
  have hle : (m : ℚ) ≤ x + 1 / 2 := by rcases hnearest.low with h | ⟨-, h⟩ <;> linarith
  have hge : x ≤ m + 1 / 2 := by rcases hnearest.high with h | ⟨-, h⟩ <;> linarith
  have hbelow : l < e + 53 := by
    have hcast : (m : ℚ) + 1 ≤ 2 * leadingBit := by exact_mod_cast hm
    have hx : x < 2 ^ (53 : ℤ) := by
      rw [hleading] at hcast
      norm_num at hcast ⊢
      linarith
    apply (zpow_lt_zpow_iff_right₀ (one_lt_two : (1 : ℚ) < 2)).mp
    calc (2 : ℚ) ^ l ≤ x * 2 ^ e := hlow
      _ < 2 ^ (53 : ℤ) * 2 ^ e := by gcongr
      _ = 2 ^ (e + 53) := by rw [← zpow_add₀ two_ne_zero, add_comm]
  by_cases hexponent : max (l - 52) leastExponent = e
  · exact .inl hexponent
  · right
    have hnormal' : leastExponent < e := by omega
    have hx : x < 2 ^ (52 : ℤ) := by
      by_contra hx
      apply hexponent
      have habove : e + 52 < l + 1 := by
        apply (zpow_lt_zpow_iff_right₀ (one_lt_two : (1 : ℚ) < 2)).mp
        calc (2 : ℚ) ^ (e + 52) = 2 ^ (52 : ℤ) * 2 ^ e := by rw [← zpow_add₀ two_ne_zero, add_comm]
          _ ≤ x * 2 ^ e := by gcongr; exact not_lt.mp hx
          _ < 2 ^ (l + 1) := hhigh
      omega
    have hm' : m = leadingBit := by
      have hcast : (m : ℚ) < leadingBit + 1 := by
        rw [hleading]
        linarith
      have hlt : m < leadingBit + 1 := by exact_mod_cast hcast
      have hle := hnormal hnormal'
      omega
    have habove : e + 51 < l + 1 := by
      have hx' := hnarrow hm' hnormal'
      apply (zpow_lt_zpow_iff_right₀ (one_lt_two : (1 : ℚ) < 2)).mp
      calc (2 : ℚ) ^ (e + 51) = 2 ^ (51 : ℤ) * 2 ^ e := by rw [← zpow_add₀ two_ne_zero, add_comm]
        _ ≤ x * 2 ^ e := by
            gcongr
            rw [hleading] at hx'
            norm_num at hx' ⊢
            linarith
        _ < 2 ^ (l + 1) := hhigh
    exact ⟨by omega, hm', hnormal', hleading ▸ hx⟩

/-- What lies in the basin of a number is nearest to it. -/
theorem nearestMagnitude_of_holds {b num den : Nat} (hb : 0 < b) (hlt : b < infinityMagnitude)
    (hnum : 0 < num) (hden : 0 < den) (h : (Basin.ofMagnitude b).Holds (num / den)) :
    nearestMagnitude num den = b := by
  obtain ⟨hnearest, hnarrow⟩ := h.isNearest hb
  have hcanonical := Dyadic.isCanonical_ofMagnitude hb
  generalize Dyadic.ofMagnitude b = d at hnearest hnarrow hcanonical
  obtain ⟨m, e⟩ := d
  obtain ⟨hpos, hm, hleast, hnormal, rfl⟩ := hcanonical
  dsimp only at hnearest hnarrow hpos hm hleast hnormal hlt ⊢
  obtain ⟨hlow, hhigh⟩ := log2Div_spec hnum hden
  have hround : ∀ e m, IsNearest m ((num : ℚ) / den / 2 ^ e) →
      roundDiv (num <<< (-e).toNat) (den <<< e.toNat) = m := by
    intro e m hm
    apply roundDiv_eq
    · rw [Nat.shiftLeft_eq]
      positivity
    · rwa [shift_div]
  rw [nearestMagnitude, if_neg hnum.ne']
  dsimp only
  rcases max_log2_eq hlow hhigh hm hleast hnormal hnearest hnarrow with
    hexponent | ⟨hexponent, rfl, hleast', hx⟩
  · rw [hexponent, hround e m hnearest]
    exact min_eq_left hlt.le
  · -- The quotient is rounded up to the power of two, which is the mantissa of the next exponent.
    have hnearest' : IsNearest (2 * leadingBit) ((num : ℚ) / den / 2 ^ (e - 1)) := by
      have hdouble : (num : ℚ) / den / 2 ^ (e - 1) = 2 * (num / den / 2 ^ e) := by
        rw [zpow_sub₀ two_ne_zero, zpow_one]
        field_simp
      have hx' := hnarrow rfl hleast'
      have hcast : ((2 * leadingBit : Nat) : ℚ) = 2 * leadingBit := by push_cast; rfl
      rw [hdouble]
      refine ⟨?_, ?_⟩ <;> rw [hcast]
      · rcases lt_or_eq_of_le hx' with hlt | heq
        · exact .inl (by linarith)
        · exact .inr ⟨Nat.mul_mod_right 2 _, by linarith⟩
      · exact .inl (by linarith)
    rw [hexponent, hround _ _ hnearest']
    have hmagnitude : (e - 1 - leastExponent).toNat * leadingBit + 2 * leadingBit =
        (e - leastExponent).toNat * leadingBit + leadingBit := by
      have hsucc : (e - leastExponent).toNat = (e - 1 - leastExponent).toNat + 1 := by omega
      rw [hsucc]
      ring
    rw [hmagnitude]
    exact min_eq_left hlt.le

/-! ## Basins and order -/

theorem mul_zpow_le {x y : ℚ} {e e' : ℤ} (h : x ≤ 2 * y) (hy : 0 ≤ y) (he : e < e') :
    x * 2 ^ e ≤ y * 2 ^ e' := by
  calc x * 2 ^ e ≤ 2 * y * 2 ^ e := by gcongr
    _ = y * 2 ^ (e + 1) := by rw [zpow_add_one₀ two_ne_zero]; ring
    _ ≤ y * 2 ^ e' := by
        gcongr
        · exact one_le_two
        · omega

section order

variable {b c : Nat} (hb : 0 < b) (hlt : b < c) {q : ℚ}
include hb hlt

/-- What lies in the basin of a number is below all larger numbers. -/
theorem Basin.Holds.lt_value (h : (Basin.ofMagnitude b).Holds q) :
    q < (Dyadic.ofMagnitude c).value := by
  have hd := Dyadic.isCanonical_ofMagnitude hb
  have hd' := Dyadic.isCanonical_ofMagnitude (hb.trans hlt)
  have hnearest := (h.isNearest hb).1
  have horder := lt_iff_ofMagnitude.mp hlt
  rw [Dyadic.value]
  generalize Dyadic.ofMagnitude b = d at hd hnearest horder
  generalize Dyadic.ofMagnitude c = d' at hd' horder ⊢
  have htwo : (0 : ℚ) < 2 ^ d.exponent := by positivity
  have hhigh : q ≤ (d.mantissa + 1 / 2) * 2 ^ d.exponent := by
    rw [← div_le_iff₀ htwo]
    rcases hnearest.high with h | ⟨-, h⟩ <;> linarith
  have hmiddle : (d.mantissa + 1 / 2) * (2 : ℚ) ^ d.exponent <
      (d.mantissa + 1) * 2 ^ d.exponent := by
    gcongr
    norm_num
  rcases horder with he | ⟨he, hm⟩
  · have hm : (leadingBit : ℚ) ≤ d'.mantissa := by
      exact_mod_cast hd'.le (Int.lt_of_le_of_lt hd.least_le he)
    calc q ≤ _ := hhigh
      _ < (d.mantissa + 1) * 2 ^ d.exponent := hmiddle
      _ ≤ leadingBit * 2 ^ d'.exponent := mul_zpow_le (by exact_mod_cast hd.lt) (by positivity) he
      _ ≤ d'.mantissa * 2 ^ d'.exponent := by gcongr
  · have hm : (d.mantissa : ℚ) + 1 ≤ d'.mantissa := by exact_mod_cast hm
    calc q ≤ _ := hhigh
      _ < (d.mantissa + 1) * 2 ^ d.exponent := hmiddle
      _ ≤ d'.mantissa * 2 ^ d'.exponent := by rw [he]; gcongr

/-- What lies in the basin of a number is above all smaller numbers. -/
theorem Basin.Holds.value_lt (h : (Basin.ofMagnitude c).Holds q) :
    (Dyadic.ofMagnitude b).value < q := by
  have hd := Dyadic.isCanonical_ofMagnitude hb
  have hd' := Dyadic.isCanonical_ofMagnitude (hb.trans hlt)
  obtain ⟨hnearest, hnarrow⟩ := h.isNearest (hb.trans hlt)
  have horder := lt_iff_ofMagnitude.mp hlt
  rw [Dyadic.value]
  generalize Dyadic.ofMagnitude b = d at hd horder ⊢
  generalize Dyadic.ofMagnitude c = d' at hd' hnearest hnarrow horder
  have htwo : (0 : ℚ) < 2 ^ d'.exponent := by positivity
  have hlow : (d'.mantissa : ℚ) - 1 / 2 ≤ q / 2 ^ d'.exponent := by
    rcases hnearest.low with h | ⟨-, h⟩ <;> linarith
  rcases horder with he | ⟨he, hm⟩
  · have hnormal : leastExponent < d'.exponent := Int.lt_of_le_of_lt hd.least_le he
    have hge : (leadingBit : ℚ) - 1 / 4 ≤ q / 2 ^ d'.exponent := by
      by_cases hm : d'.mantissa = leadingBit
      · exact hnarrow hm hnormal
      · have hm : (leadingBit : ℚ) + 1 ≤ d'.mantissa := by
          exact_mod_cast Nat.lt_of_le_of_ne (hd'.le hnormal) (Ne.symm hm)
        linarith
    have hm : (d.mantissa : ℚ) + 1 ≤ 2 * leadingBit := by exact_mod_cast hd.lt
    rw [le_div_iff₀ htwo] at hge
    calc (d.mantissa : ℚ) * 2 ^ d.exponent ≤ (leadingBit - 1 / 2) * 2 ^ d'.exponent :=
          mul_zpow_le (by linarith) (by norm_num [leadingBit_eq]) he
      _ < (leadingBit - 1 / 4) * 2 ^ d'.exponent := by
          gcongr
          norm_num
      _ ≤ q := hge
  · have hm : (d.mantissa : ℚ) + 1 ≤ d'.mantissa := by exact_mod_cast hm
    rw [le_div_iff₀ htwo] at hlow
    calc (d.mantissa : ℚ) * 2 ^ d.exponent < (d'.mantissa - 1 / 2) * 2 ^ d'.exponent := by
          rw [he]
          gcongr
          linarith
      _ ≤ q := hlow

end order

end LineBasic.Number
