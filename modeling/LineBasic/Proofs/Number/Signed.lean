import LineBasic.Proofs.Number.Magnitude

/-!
# Numbers of either sign

A number is made up of its sign and its magnitude (`ofMagnitude_magnitude`). The magnitude tells the
zeros and what is not a number apart from the rest (`magnitude_eq_zero_iff`, `isNaN_iff`), and two
numbers are equal to each other if they are the same or are both a zero (`beq_iff`).
-/

namespace LineBasic.Number

open Float.Model Float.Model.UnpackedFloat

variable {u : Bits} {x y : Float}

/-! ## Bits -/

theorem unpack_notANumber (h : infinityMagnitude < u.toNat % signBit) :
    unpack Format.binary64 u = .notANumber := by
  rw [infinityMagnitude_eq, signBit_eq] at h
  have hexponent : unpackExponent u = -1#_ := by
    rw [unpackExponent_eq_top_iff, leadingBit_eq]
    omega
  have hmantissa : unpackMantissa u ≠ 0#_ := by
    rw [Ne, ← BitVec.toNat_inj, toNat_unpackMantissa, leadingBit_eq]
    show u.toNat % _ ≠ 0
    omega
  unfold UnpackedFloat.unpack
  dsimp only
  rw [if_pos hexponent, if_neg hmantissa]

theorem unpack_eq_notANumber_iff :
    unpack Format.binary64 u = .notANumber ↔ infinityMagnitude < u.toNat % signBit := by
  refine ⟨fun h => ?_, unpack_notANumber⟩
  by_contra hle
  rcases (Nat.le_of_not_lt hle).eq_or_lt with heq | hlt
  · rw [unpack_infinity rfl heq] at h
    cases h
  rcases Nat.eq_zero_or_pos (u.toNat % signBit) with hzero | hpos
  · rw [unpack_zero rfl hzero] at h
    cases h
  · obtain ⟨_, hfinite⟩ := unpack_finite rfl hpos hlt
    rw [hfinite] at h
    cases h

theorem exists_unpack_eq_zero_iff :
    (∃ sign, unpack Format.binary64 u = .zero sign) ↔ u.toNat % signBit = 0 := by
  refine ⟨?_, fun h => ⟨_, unpack_zero rfl h⟩⟩
  rintro ⟨sign, h⟩
  by_contra hne
  rcases Nat.lt_trichotomy (u.toNat % signBit) infinityMagnitude with hlt | heq | hgt
  · obtain ⟨_, hfinite⟩ := unpack_finite rfl (Nat.pos_of_ne_zero hne) hlt
    rw [hfinite] at h
    cases h
  · rw [unpack_infinity rfl heq] at h
    cases h
  · rw [unpack_notANumber hgt] at h
    cases h

/-- Only what is the same compares as equal, and the zeros do. -/
theorem compare_eq_eq_iff {a b : UnpackedFloat} :
    a.compare b = some .eq ↔ a = b ∧ a ≠ .notANumber ∨ (∃ sign, a = .zero sign) ∧
      ∃ sign, b = .zero sign := by
  have hsize : ∀ (m n : Nat) (e f : Int), (Ord.compare e f).then (Ord.compare m n) = .eq ↔
      m = n ∧ e = f := by
    intro m n e f
    rw [Ordering.then_eq_eq, compare_eq_iff_eq, compare_eq_iff_eq, and_comm]
  constructor
  · intro h
    have hnumber : a ≠ .notANumber := by
      rintro rfl
      cases h
    cases a with
    | notANumber => exact absurd rfl hnumber
    | infinity s =>
      cases b with
      | infinity s' =>
        have hsign : s = s' := by
          cases s <;> cases s' <;> first | rfl | cases h
        exact .inl ⟨congrArg _ hsign, hnumber⟩
      | _ => cases s <;> cases h
    | zero s =>
      cases b with
      | notANumber => cases h
      | zero s' => exact .inr ⟨⟨_, rfl⟩, _, rfl⟩
      | infinity s' | finite s' => cases s' <;> cases h
    | finite s m e =>
      cases b with
      | infinity s' => cases s' <;> cases h
      | finite s' n f =>
        obtain ⟨rfl, hmantissa, hexponent⟩ : s = s' ∧ m = n ∧ e = f := by
          cases s <;> cases s'
          case negative.negative =>
            exact ⟨rfl, (hsize m n e f).mp (Ordering.swap_eq_eq.mp (Option.some.inj h))⟩
          case positive.positive => exact ⟨rfl, (hsize m n e f).mp (Option.some.inj h)⟩
          all_goals cases h
        exact .inl ⟨finite_congr hmantissa hexponent, hnumber⟩
      | _ => cases s <;> cases h
  · rintro (⟨rfl, hnumber⟩ | ⟨⟨s, rfl⟩, s', rfl⟩)
    · have hself : ∀ (m : Nat) (e : Int), (Ord.compare e e).then (Ord.compare m m) = .eq :=
        fun m e => (hsize m m e e).mpr ⟨rfl, rfl⟩
      cases a with
      | notANumber => exact absurd rfl hnumber
      | infinity s => cases s <;> rfl
      | zero s => rfl
      | finite s m e =>
        cases s with
        | negative => exact congrArg (fun o : Ordering => some o.swap) (hself m e)
        | positive => exact congrArg some (hself m e)
    · rfl

/-! ## Numbers -/

theorem unpack_inj : x.toModel.unpack = y.toModel.unpack ↔ x = y := by
  refine ⟨fun h => ?_, fun h => h ▸ rfl⟩
  have hbits : x.toModel.toBits = y.toModel.toBits := by
    apply UInt64.toBitVec_inj.mp
    rw [← pack_unpack x.toModel.valid, ← pack_unpack y.toModel.valid]
    exact congrArg _ h
  obtain ⟨⟨bits, hx⟩⟩ := x
  obtain ⟨⟨bits', hy⟩⟩ := y
  obtain rfl : bits = bits' := hbits
  rfl

theorem ofBits_toBits (x : Float) : Float.ofBits x.toBits = x := by
  apply unpack_inj.mp
  show unpack Format.binary64
    (UnpackedFloat.pack Format.binary64 (unpack Format.binary64 x.toModel.toBits.toBitVec)) = _
  rw [pack_unpack x.toModel.valid]
  rfl

theorem eq_ofMagnitude {b : Nat} (h : x.toBits.toNat = b) : x = ofMagnitude false b := by
  subst h
  show x = Float.ofBits (UInt64.ofNat x.toBits.toNat)
  rw [UInt64.ofNat_toNat, ofBits_toBits]

/-- The sign and the magnitude make up the number. -/
theorem ofMagnitude_magnitude (x : Float) : ofMagnitude (isNegative x) (magnitude x) = x := by
  have hlt : x.toBits.toNat < 2 * signBit := x.toBits.toNat_lt
  have hbits : (if isNegative x then signBit + magnitude x else magnitude x) = x.toBits.toNat := by
    simp only [isNegative, magnitude, decide_eq_true_eq]
    split
    · rename_i hle
      rw [Nat.mod_eq_sub_mod hle, Nat.mod_eq_of_lt (by omega)]
      omega
    · rename_i hle
      exact Nat.mod_eq_of_lt (Nat.lt_of_not_le hle)
  rw [ofMagnitude, hbits, UInt64.ofNat_toNat, ofBits_toBits]

theorem unpack_eq_notANumber : x.toModel.unpack = .notANumber ↔ infinityMagnitude < magnitude x :=
  unpack_eq_notANumber_iff

theorem exists_unpack_eq_zero : (∃ sign, x.toModel.unpack = .zero sign) ↔ magnitude x = 0 :=
  exists_unpack_eq_zero_iff

theorem isNaN_iff : x.isNaN = true ↔ infinityMagnitude < magnitude x := by
  rw [← unpack_eq_notANumber]
  show x.toModel.unpack.isNaN = true ↔ _
  cases x.toModel.unpack with
  | notANumber => exact iff_of_true rfl rfl
  | _ => exact iff_of_false Bool.false_ne_true (by intro h; cases h)

/-- All that is not a number is the same. -/
theorem eq_of_isNaN (hx : x.isNaN = true) (hy : y.isNaN = true) : x = y := by
  apply unpack_inj.mp
  rw [unpack_eq_notANumber.mpr (isNaN_iff.mp hx), unpack_eq_notANumber.mpr (isNaN_iff.mp hy)]

/-- Numbers are equal to each other if they are the same number, or zeros of whatever sign. -/
theorem beq_iff :
    (x == y) = true ↔ x = y ∧ x.isNaN = false ∨ magnitude x = 0 ∧ magnitude y = 0 := by
  show (x.toModel.unpack.compare y.toModel.unpack == some .eq) = true ↔ _
  rw [beq_iff_eq, compare_eq_eq_iff, unpack_inj, exists_unpack_eq_zero, exists_unpack_eq_zero, Ne,
    unpack_eq_notANumber, ← isNaN_iff, Bool.not_eq_true]

theorem magnitude_zero : magnitude 0 = 0 := by decide +kernel

theorem magnitude_eq_zero_iff : magnitude x = 0 ↔ (x == 0) = true := by
  rw [beq_iff]
  refine ⟨fun h => .inr ⟨h, magnitude_zero⟩, ?_⟩
  rintro (⟨rfl, -⟩ | ⟨h, -⟩)
  · exact magnitude_zero
  · exact h

end LineBasic.Number
