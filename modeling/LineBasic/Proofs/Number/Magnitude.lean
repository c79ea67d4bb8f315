import LineBasic.Number.Binary64
import Mathlib.Algebra.Order.Ring.Nat
import Mathlib.Data.Int.Order.Basic

/-!
# Magnitudes and floating-point numbers

The bits of a number without its sign say what the number is: `unpack_subnormal` and `unpack_normal`
read them as `Dyadic.ofMagnitude` does. So the number of a magnitude has that magnitude again
(`magnitude_ofMagnitude`), and numbers are ordered as their magnitudes are (`ofMagnitude_lt_iff`).
-/

namespace LineBasic.Number

open Float.Model Float.Model.UnpackedFloat

theorem leadingBit_eq : leadingBit = 2 ^ 52 := by decide

theorem signBit_eq : signBit = 2 ^ 63 := by decide

theorem infinityMagnitude_eq : infinityMagnitude = 2047 * 2 ^ 52 := by decide

theorem leadingBit_pos : 0 < leadingBit := by decide

theorem infinityMagnitude_lt_signBit : infinityMagnitude < signBit := by decide

/-! ## The parts of the bits -/

/-- The bits of a number, as the floating-point format has them. -/
abbrev Bits := BitVec Format.binary64.numBits

variable {u : Bits}

theorem toNat_unpackMantissa (u : Bits) : (unpackMantissa u).toNat = u.toNat % leadingBit := by
  simp [unpackMantissa, leadingBit]

theorem toNat_unpackExponent (u : Bits) :
    (unpackExponent u).toNat = u.toNat / leadingBit % 2 ^ 11 := by
  simp [unpackExponent, leadingBit, Nat.shiftRight_eq_div_pow]

theorem toNat_unpackSign (u : Bits) : (unpackSign u).toNat = u.toNat / signBit % 2 := by
  unfold unpackSign
  simp [signBit, Nat.shiftRight_eq_div_pow]

/-- The mantissa with its leading bit, which is not stored. -/
theorem toNat_leading (u : Bits) :
    (1#1 ++ unpackMantissa u).toNat = (unpackMantissa u).toNat + leadingBit := by
  rw [BitVec.toNat_append, ← Nat.shiftLeft_add_eq_or_of_lt (unpackMantissa u).isLt, Nat.add_comm]
  rfl

theorem unpackExponent_eq_iff {k : Nat} (hk : k < 2 ^ 11) :
    unpackExponent u = BitVec.ofNat _ k ↔ u.toNat / leadingBit % 2 ^ 11 = k := by
  have hmod : k % 2 ^ Format.binary64.exponentBits = k := Nat.mod_eq_of_lt hk
  rw [← BitVec.toNat_inj, toNat_unpackExponent, BitVec.toNat_ofNat, hmod]

theorem unpackExponent_eq_top_iff :
    unpackExponent u = -1#_ ↔ u.toNat / leadingBit % 2 ^ 11 = 2047 := by
  have htop : (-1#11 : BitVec 11) = BitVec.ofNat 11 2047 := by decide
  rw [htop, unpackExponent_eq_iff (by decide)]

theorem ofBitVec_unpackSign (h : u.toNat < signBit) : Sign.ofBitVec (unpackSign u) = .positive := by
  have hsign : unpackSign u = 0#1 := by
    apply BitVec.eq_of_toNat_eq
    rw [toNat_unpackSign, Nat.div_eq_of_lt h]
    rfl
  rw [hsign]
  rfl

/-- The parts of bits make them up again. -/
theorem packComponents_unpack (u : Bits) :
    packComponents Format.binary64 (Sign.ofBitVec (unpackSign u)) (unpackExponent u)
      (unpackMantissa u) = u := by
  have hsign : ∀ v : BitVec 1, (Sign.ofBitVec v).toBitVec = v := by decide
  have hlow := (unpackMantissa u).isLt
  have hmiddle := (unpackExponent u).isLt
  have hlt : u.toNat < 2 ^ 64 := u.isLt
  apply BitVec.eq_of_toNat_eq
  rw [packComponents, BitVec.toNat_append, BitVec.toNat_append, hsign,
    ← Nat.shiftLeft_add_eq_or_of_lt hlow, ← Nat.shiftLeft_add_eq_or_of_lt hmiddle,
    toNat_unpackMantissa, toNat_unpackExponent, toNat_unpackSign]
  simp only [Nat.shiftLeft_eq, leadingBit_eq, signBit_eq]
  omega

/-! ## Unpacking -/

theorem finite_congr {sign : Sign} {m n : Nat} {e f : Int} {hm : 0 < m} (hmn : m = n)
    (hef : e = f) :
    UnpackedFloat.finite sign m e hm = .finite sign n f (hmn ▸ hm) := by
  subst hmn hef
  rfl

section unpacking

variable {b : Nat} (hb : u.toNat % signBit = b)
include hb

theorem unpackExponent_eq_div (h : b ≤ infinityMagnitude) :
    (unpackExponent u).toNat = b / leadingBit := by
  rw [infinityMagnitude_eq] at h
  rw [toNat_unpackExponent, leadingBit_eq]
  rw [signBit_eq] at hb
  omega

theorem unpackMantissa_eq_mod : (unpackMantissa u).toNat = b % leadingBit := by
  rw [toNat_unpackMantissa, leadingBit_eq]
  rw [signBit_eq] at hb
  omega

theorem unpackExponent_ne_top (h : b < infinityMagnitude) : unpackExponent u ≠ -1#_ := by
  have hexponent := unpackExponent_eq_div hb h.le
  rw [toNat_unpackExponent] at hexponent
  rw [infinityMagnitude_eq] at h
  rw [Ne, unpackExponent_eq_top_iff, hexponent, leadingBit_eq]
  omega

theorem unpackExponent_eq_zero (h : b < leadingBit) : unpackExponent u = 0#_ := by
  apply BitVec.eq_of_toNat_eq
  rw [unpackExponent_eq_div hb (h.le.trans (by decide)), Nat.div_eq_of_lt h]
  rfl

theorem unpackExponent_ne_zero (hlow : leadingBit ≤ b) (hlt : b < infinityMagnitude) :
    unpackExponent u ≠ 0#_ := by
  have hexponent := unpackExponent_eq_div hb hlt.le
  rw [toNat_unpackExponent] at hexponent
  rw [Ne, unpackExponent_eq_iff (by decide), hexponent]
  exact (Nat.div_pos hlow leadingBit_pos).ne'

theorem unpack_zero (h : b = 0) :
    unpack Format.binary64 u = .zero (Sign.ofBitVec (unpackSign u)) := by
  have hmantissa : unpackMantissa u = 0#_ := by
    apply BitVec.eq_of_toNat_eq
    rw [unpackMantissa_eq_mod hb, h]
    rfl
  unfold UnpackedFloat.unpack
  dsimp only
  rw [if_neg (unpackExponent_ne_top hb (h ▸ by decide)),
    if_pos (unpackExponent_eq_zero hb (h ▸ leadingBit_pos)), dif_pos hmantissa]

theorem unpack_infinity (h : b = infinityMagnitude) :
    unpack Format.binary64 u = .infinity (Sign.ofBitVec (unpackSign u)) := by
  have hexponent : unpackExponent u = -1#_ := by
    apply BitVec.eq_of_toNat_eq
    rw [unpackExponent_eq_div hb h.le, h]
    rfl
  have hmantissa : unpackMantissa u = 0#_ := by
    apply BitVec.eq_of_toNat_eq
    rw [unpackMantissa_eq_mod hb, h]
    rfl
  unfold UnpackedFloat.unpack
  dsimp only
  rw [if_pos hexponent, if_pos hmantissa]

/-- Below the leading bit the mantissa is the magnitude itself. -/
theorem unpack_subnormal (hpos : 0 < b) (h : b < leadingBit) :
    unpack Format.binary64 u = .finite (Sign.ofBitVec (unpackSign u)) b leastExponent hpos := by
  have hlt : b < infinityMagnitude := Nat.lt_trans h (by decide)
  have hmantissa : (unpackMantissa u).toNat = b := by
    rw [unpackMantissa_eq_mod hb, Nat.mod_eq_of_lt h]
  have hne : unpackMantissa u ≠ 0#_ := by
    rw [Ne, ← BitVec.toNat_inj, hmantissa]
    exact hpos.ne'
  unfold UnpackedFloat.unpack
  dsimp only
  rw [if_neg (unpackExponent_ne_top hb hlt), if_pos (unpackExponent_eq_zero hb h), dif_neg hne]
  refine finite_congr hmantissa ?_
  rw [unpackExponent_eq_zero hb h]
  rfl

/-- From the leading bit on it is put before the stored bits. -/
theorem unpack_normal (hlow : leadingBit ≤ b) (hlt : b < infinityMagnitude) :
    unpack Format.binary64 u =
      .finite (Sign.ofBitVec (unpackSign u)) (b % leadingBit + leadingBit)
        ((b / leadingBit : Nat) - 1 + leastExponent) (Nat.add_pos_right _ leadingBit_pos) := by
  have hexponent : ((unpackExponent u).toNat : Int) -
      (Format.binary64.exponentBias + Format.binary64.mantissaBitsWithoutImplicit) =
      (b / leadingBit : Nat) - 1 + leastExponent := by
    rw [unpackExponent_eq_div hb hlt.le]
    simp only [Format.exponentBias, leastExponent]
    omega
  unfold UnpackedFloat.unpack
  dsimp only
  rw [if_neg (unpackExponent_ne_top hb hlt), if_neg (unpackExponent_ne_zero hb hlow hlt)]
  refine finite_congr ?_ hexponent
  rw [toNat_leading, unpackMantissa_eq_mod hb]

/-- The bits of a finite number stand for the dyadic number of its magnitude. -/
theorem unpack_finite (hpos : 0 < b) (hlt : b < infinityMagnitude) :
    ∃ hm, unpack Format.binary64 u =
      .finite (Sign.ofBitVec (unpackSign u)) (Dyadic.ofMagnitude b).mantissa
        (Dyadic.ofMagnitude b).exponent hm := by
  by_cases h : b < leadingBit
  · rw [Dyadic.ofMagnitude, if_pos h]
    exact ⟨hpos, unpack_subnormal hb hpos h⟩
  · rw [Dyadic.ofMagnitude, if_neg h]
    exact ⟨Nat.add_pos_right _ leadingBit_pos, unpack_normal hb (Nat.le_of_not_lt h) hlt⟩

end unpacking

/-! ## Packing again -/

theorem pack_subnormal (sign : Sign) {m : Nat} (hm : 0 < m) (h : m < leadingBit) :
    UnpackedFloat.pack Format.binary64 (.finite sign m leastExponent hm) =
      packComponents Format.binary64 sign 0#_ (BitVec.ofNat _ m) := by
  have hbits : m.log2 + 1 ≠ Format.binary64.mantissaBits := by
    have hlog : m.log2 < 52 := (Nat.log2_lt (by omega)).mpr h
    have hformat : Format.binary64.mantissaBits = 53 := rfl
    omega
  unfold UnpackedFloat.pack
  dsimp only
  rw [if_neg (by decide), if_neg hbits]

theorem pack_normal (sign : Sign) {m k : Nat} (hm : 0 < m) (hlow : leadingBit ≤ m)
    (hhigh : m < 2 * leadingBit) (h : k < 2047) :
    UnpackedFloat.pack Format.binary64 (.finite sign m (k - 1 + leastExponent) hm) =
      packComponents Format.binary64 sign (BitVec.ofNat _ k) (BitVec.ofNat _ m) := by
  have hbits : m.log2 + 1 = Format.binary64.mantissaBits := by
    rw [leadingBit_eq] at hlow hhigh
    rw [(Nat.log2_eq_iff (by omega)).mpr ⟨hlow, by omega⟩]
    rfl
  have hbias : ((k : Int) - 1 + leastExponent + Format.binary64.exponentBias +
      Format.binary64.mantissaBitsWithoutImplicit).toNat = k := by
    simp only [leastExponent, Format.exponentBias]
    omega
  unfold UnpackedFloat.pack
  dsimp only
  rw [hbias, if_neg (by omega), if_pos hbits]

/-- Bits up to those of an infinite number, whatever their sign, make up a number. -/
theorem valid_of_le (h : u.toNat % signBit ≤ infinityMagnitude) : Format.binary64.Valid u where
  eq_packedNaN htop hmantissa := by
    rcases Nat.eq_or_lt_of_le h with heq | hlt
    · refine absurd (BitVec.eq_of_toNat_eq ?_) hmantissa
      rw [unpackMantissa_eq_mod heq]
      rfl
    · exact absurd htop (unpackExponent_ne_top rfl hlt)

/-- Bits that have only the one pattern for what is not a number are packed as they were. -/
theorem pack_unpack (h : Format.binary64.Valid u) :
    UnpackedFloat.pack Format.binary64 (unpack Format.binary64 u) = u := by
  have hparts := packComponents_unpack u
  unfold UnpackedFloat.unpack
  dsimp only
  by_cases htop : unpackExponent u = -1#_
  · rw [if_pos htop]
    by_cases hmantissa : unpackMantissa u = 0#_
    · rw [if_pos hmantissa]
      rw [htop, hmantissa] at hparts
      exact hparts
    · rw [if_neg hmantissa]
      exact (h.eq_packedNaN htop hmantissa).symm
  · rw [if_neg htop]
    by_cases hlow : unpackExponent u = 0#_
    · rw [if_pos hlow]
      by_cases hmantissa : unpackMantissa u = 0#_
      · rw [dif_pos hmantissa]
        rw [hlow, hmantissa] at hparts
        exact hparts
      · have hexponent : ((unpackExponent u).toNat : Int) -
            (Format.binary64.exponentBias + Format.binary64.mantissaBitsWithoutImplicit) + 1 =
              leastExponent := by
          rw [hlow]
          rfl
        rw [dif_neg hmantissa, finite_congr rfl hexponent]
        rw [pack_subnormal _ _ (unpackMantissa u).isLt, ← hlow, BitVec.ofNat_toNat,
          BitVec.setWidth_eq, hparts]
    · have hexponent : ((unpackExponent u).toNat : Int) -
          (Format.binary64.exponentBias + Format.binary64.mantissaBitsWithoutImplicit) =
          (unpackExponent u).toNat - 1 + leastExponent := by
        simp only [Format.exponentBias, leastExponent]
        omega
      have hk : (unpackExponent u).toNat < 2047 := by
        have hlt : (unpackExponent u).toNat < 2 ^ 11 := (unpackExponent u).isLt
        have hne : (unpackExponent u).toNat ≠ 2047 := fun heq => htop (BitVec.eq_of_toNat_eq heq)
        omega
      have hlt : (unpackMantissa u).toNat < leadingBit := (unpackMantissa u).isLt
      have hstored : BitVec.ofNat _ ((unpackMantissa u).toNat + leadingBit) = unpackMantissa u := by
        apply BitVec.eq_of_toNat_eq
        rw [BitVec.toNat_ofNat]
        exact (Nat.add_mod_right _ leadingBit).trans (Nat.mod_eq_of_lt hlt)
      rw [if_neg hlow, finite_congr (toNat_leading u) hexponent]
      rw [pack_normal _ _ (Nat.le_add_left _ _) (by omega) hk, hstored, BitVec.ofNat_toNat,
        BitVec.setWidth_eq, hparts]


/-! ## The number of a magnitude -/

variable {b : Nat}

theorem toNat_ofNat (h : b ≤ infinityMagnitude) : (UInt64.ofNat b).toNat = b := by
  apply UInt64.toNat_ofNat_of_lt'
  exact Nat.lt_of_le_of_lt h (by decide)

section signed

variable {negative : Bool} (h : b ≤ infinityMagnitude)
include h

theorem toNat_ofNat_signed :
    (UInt64.ofNat (if negative then signBit + b else b)).toNat =
      if negative then signBit + b else b := by
  have hlt := Nat.lt_of_le_of_lt h infinityMagnitude_lt_signBit
  apply UInt64.toNat_ofNat_of_lt'
  cases negative with
  | false => exact hlt.trans (by decide)
  | true => exact Nat.lt_of_lt_of_le (Nat.add_lt_add_left hlt signBit) (by decide)

theorem toNat_ofNat_mod :
    (UInt64.ofNat (if negative then signBit + b else b)).toNat % signBit = b := by
  have hlt := Nat.lt_of_le_of_lt h infinityMagnitude_lt_signBit
  rw [toNat_ofNat_signed h]
  cases negative with
  | false => exact Nat.mod_eq_of_lt hlt
  | true => exact (Nat.add_mod_left ..).trans (Nat.mod_eq_of_lt hlt)

theorem toBits_ofMagnitude :
    (ofMagnitude negative b).toBits = UInt64.ofNat (if negative then signBit + b else b) := by
  have hmod : (UInt64.ofNat (if negative then signBit + b else b)).toBitVec.toNat % signBit = b :=
    toNat_ofNat_mod h
  have hpack := pack_unpack (valid_of_le (hmod.trans_le h))
  show UInt64.ofBitVec (UnpackedFloat.pack Format.binary64 (unpack Format.binary64
    (UInt64.ofNat (if negative then signBit + b else b)).toBitVec)) = _
  rw [hpack]

theorem magnitude_ofMagnitude : magnitude (ofMagnitude negative b) = b := by
  rw [magnitude, toBits_ofMagnitude h, toNat_ofNat_mod h]

theorem isNegative_ofMagnitude : isNegative (ofMagnitude negative b) = negative := by
  have hlt := Nat.lt_of_le_of_lt h infinityMagnitude_lt_signBit
  rw [isNegative, toBits_ofMagnitude h, toNat_ofNat_signed h]
  cases negative with
  | false => exact decide_eq_false (Nat.not_le_of_lt hlt)
  | true => exact decide_eq_true (Nat.le_add_right ..)

end signed

/-- The dyadic numbers of magnitudes are ordered as the magnitudes are, first by their exponents. -/
theorem lt_iff_ofMagnitude {b c : Nat} :
    b < c ↔ (Dyadic.ofMagnitude b).exponent < (Dyadic.ofMagnitude c).exponent ∨
    (Dyadic.ofMagnitude b).exponent = (Dyadic.ofMagnitude c).exponent ∧
      (Dyadic.ofMagnitude b).mantissa < (Dyadic.ofMagnitude c).mantissa := by
  simp only [Dyadic.ofMagnitude, leadingBit_eq, leastExponent]
  split <;> split <;> dsimp only <;> omega

theorem unpack_toModel (h : b ≤ infinityMagnitude) :
    (ofMagnitude false b).toModel.unpack = unpack Format.binary64 (UInt64.ofNat b).toBitVec := by
  have hbits : (ofMagnitude false b).toBits = UInt64.ofNat b := toBits_ofMagnitude h
  show unpack Format.binary64 (ofMagnitude false b).toBits.toBitVec = _
  rw [hbits]

/-- What the number of a magnitude is. -/
theorem unpack_cases (h : b ≤ infinityMagnitude) :
    b = 0 ∧ (ofMagnitude false b).toModel.unpack = .zero .positive ∨
      (0 < b ∧ b < infinityMagnitude) ∧ (∃ hm, (ofMagnitude false b).toModel.unpack =
        .finite .positive (Dyadic.ofMagnitude b).mantissa (Dyadic.ofMagnitude b).exponent hm) ∨
      b = infinityMagnitude ∧ (ofMagnitude false b).toModel.unpack = .infinity .positive := by
  have hbits : (UInt64.ofNat b).toBitVec.toNat = b := toNat_ofNat h
  have hsign : b < signBit := Nat.lt_of_le_of_lt h infinityMagnitude_lt_signBit
  have hb : (UInt64.ofNat b).toBitVec.toNat % signBit = b := by rw [hbits, Nat.mod_eq_of_lt hsign]
  rw [unpack_toModel h, ← ofBitVec_unpackSign (u := (UInt64.ofNat b).toBitVec) (by rwa [hbits])]
  rcases Nat.eq_or_lt_of_le h with htop | hlt
  · exact .inr (.inr ⟨htop, unpack_infinity hb htop⟩)
  · rcases Nat.eq_zero_or_pos b with hzero | hpos
    · exact .inl ⟨hzero, unpack_zero hb hzero⟩
    · exact .inr (.inl ⟨⟨hpos, hlt⟩, unpack_finite hb hpos hlt⟩)

/-- A number without a sign is its own size. -/
theorem abs_ofMagnitude (h : b ≤ infinityMagnitude) :
    (ofMagnitude false b).abs = ofMagnitude false b := by
  have habs : (ofMagnitude false b).toModel.unpack.abs = (ofMagnitude false b).toModel.unpack := by
    rcases unpack_cases h with ⟨-, heq⟩ | ⟨-, hm, heq⟩ | ⟨-, heq⟩ <;> rw [heq] <;> rfl
  show Float.ofModel (.pack (ofMagnitude false b).toModel.unpack.abs) = _
  rw [habs, unpack_toModel h]
  rfl

/-- Finite numbers without a sign compare by their exponents and then by their mantissas. -/
theorem compare_ofMagnitude (b c : Nat) :
    (Ord.compare (Dyadic.ofMagnitude b).exponent (Dyadic.ofMagnitude c).exponent).then
      (Ord.compare (Dyadic.ofMagnitude b).mantissa (Dyadic.ofMagnitude c).mantissa) =
        Ord.compare b c := by
  rcases Nat.lt_trichotomy b c with h | rfl | h
  · rw [compare_lt_iff_lt.mpr h]
    rcases lt_iff_ofMagnitude.mp h with he | ⟨he, hm⟩
    · rw [compare_lt_iff_lt.mpr he, Ordering.lt_then]
    · rw [compare_eq_iff_eq.mpr he, Ordering.eq_then, compare_lt_iff_lt.mpr hm]
  · simp
  · rw [compare_gt_iff_gt.mpr h]
    rcases lt_iff_ofMagnitude.mp h with he | ⟨he, hm⟩
    · rw [compare_gt_iff_gt.mpr he, Ordering.gt_then]
    · rw [compare_eq_iff_eq.mpr he.symm, Ordering.eq_then, compare_gt_iff_gt.mpr hm]

/-- Numbers without a sign compare as their magnitudes do. -/
theorem compare_unpack {c : Nat} (hb : b ≤ infinityMagnitude) (hc : c ≤ infinityMagnitude) :
    (ofMagnitude false b).toModel.unpack.compare (ofMagnitude false c).toModel.unpack =
      some (Ord.compare b c) := by
  have hpos : 0 < infinityMagnitude := by decide
  rcases unpack_cases hb with ⟨hb, heq⟩ | ⟨hb, hm, heq⟩ | ⟨hb, heq⟩ <;>
    rcases unpack_cases hc with ⟨hc, heq'⟩ | ⟨hc, hm', heq'⟩ | ⟨hc, heq'⟩ <;> rw [heq, heq']
  case inr.inl.inr.inl => exact congrArg some (compare_ofMagnitude b c)
  all_goals
    apply congrArg some
    symm
  · exact Nat.compare_eq_eq.mpr (hb.trans hc.symm)
  · exact Nat.compare_eq_lt.mpr (hb ▸ hc.1)
  · exact Nat.compare_eq_lt.mpr (by omega)
  · exact Nat.compare_eq_gt.mpr (hc ▸ hb.1)
  · exact Nat.compare_eq_lt.mpr (hc ▸ hb.2)
  · exact Nat.compare_eq_gt.mpr (by omega)
  · exact Nat.compare_eq_gt.mpr (hb ▸ hc.2)
  · exact Nat.compare_eq_eq.mpr (hb.trans hc.symm)

section order

variable {c : Nat} (hb : b ≤ infinityMagnitude) (hc : c ≤ infinityMagnitude)
include hb hc

theorem ofMagnitude_lt_iff : ofMagnitude false b < ofMagnitude false c ↔ b < c := by
  show decide ((ofMagnitude false b).toModel < (ofMagnitude false c).toModel) = true ↔ _
  rw [decide_eq_true_iff]
  show ((ofMagnitude false b).toModel.unpack.compare (ofMagnitude false c).toModel.unpack == _) =
      true ↔ _
  rw [compare_unpack hb hc, beq_iff_eq, Option.some_inj, Nat.compare_eq_lt]

theorem ofMagnitude_le_iff : ofMagnitude false b ≤ ofMagnitude false c ↔ b ≤ c := by
  show decide ((ofMagnitude false b).toModel ≤ (ofMagnitude false c).toModel) = true ↔ _
  rw [decide_eq_true_iff]
  show ((ofMagnitude false b).toModel.unpack.compare (ofMagnitude false c).toModel.unpack).any _ =
      true ↔ _
  rw [compare_unpack hb hc, Option.any_some, Nat.isLE_compare]

theorem ofMagnitude_beq_iff : (ofMagnitude false b == ofMagnitude false c) = true ↔ b = c := by
  show ((ofMagnitude false b).toModel.unpack.compare (ofMagnitude false c).toModel.unpack == _) =
      true ↔ _
  rw [compare_unpack hb hc, beq_iff_eq, Option.some_inj, Nat.compare_eq_eq]

end order

end LineBasic.Number
