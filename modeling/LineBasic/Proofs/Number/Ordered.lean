import LineBasic.Proofs.Number.Signed

/-!
# The order of numbers

Two numbers can be compared unless one of them is not a number (`compare_eq_none_iff`), and the
other way round the comparison is reversed (`compare_swap`). So a number that is not less than
another is at least as large, or the two cannot be compared (`not_lt_iff`). What is not a number
stays so in a sum (`isNaN_add`).
-/

namespace LineBasic.Number

open Float.Model Float.Model.UnpackedFloat

/-! ## Comparing -/

theorem compare_eq_none_iff {a b : UnpackedFloat} :
    a.compare b = none ↔ a = .notANumber ∨ b = .notANumber := by
  constructor
  · intro h
    cases a with
    | notANumber => exact .inl rfl
    | infinity s =>
      cases b with
      | notANumber => exact .inr rfl
      | infinity => cases h
      | _ => cases s <;> cases h
    | zero s =>
      cases b with
      | notANumber => exact .inr rfl
      | zero => cases h
      | infinity s' | finite s' => cases s' <;> cases h
    | finite s =>
      cases b with
      | notANumber => exact .inr rfl
      | zero => cases s <;> cases h
      | infinity s' | finite s' => cases s <;> cases s' <;> cases h
  · rintro (rfl | rfl)
    · rfl
    · cases a <;> rfl

theorem compare_swap (a b : UnpackedFloat) : b.compare a = (a.compare b).map Ordering.swap := by
  have hsize : ∀ (m n : Nat) (e f : Int), ((Ord.compare e f).then (Ord.compare m n)).swap =
      (Ord.compare f e).then (Ord.compare n m) := by
    intro m n e f
    rw [Ordering.swap_then, Std.OrientedOrd.eq_swap (a := f), Std.OrientedOrd.eq_swap (a := n)]
  cases a with
  | notANumber => cases b <;> rfl
  | infinity s =>
    cases b with
    | infinity s' => cases s <;> cases s' <;> rfl
    | _ => cases s <;> rfl
  | zero s =>
    cases b with
    | infinity s' | finite s' => cases s' <;> rfl
    | _ => rfl
  | finite s m e =>
    cases b with
    | infinity s' => cases s' <;> rfl
    | finite s' n f =>
      cases s <;> cases s'
      case negative.negative =>
        exact congrArg (fun o : Ordering => some o.swap) (hsize m n e f).symm
      case positive.positive => exact congrArg some (hsize m n e f).symm
      all_goals rfl
    | _ => cases s <;> rfl

variable {x y : Float}

theorem lt_iff_compare : x < y ↔ x.toModel.unpack.compare y.toModel.unpack = some .lt := by
  show decide (x.toModel < y.toModel) = true ↔ _
  rw [decide_eq_true_iff]
  show (x.toModel.unpack.compare y.toModel.unpack == _) = true ↔ _
  rw [beq_iff_eq]

theorem le_iff_compare :
    x ≤ y ↔ (x.toModel.unpack.compare y.toModel.unpack).any (·.isLE) = true := by
  show decide (x.toModel ≤ y.toModel) = true ↔ _
  rw [decide_eq_true_iff]
  rfl

theorem beq_iff_compare :
    (x == y) = true ↔ x.toModel.unpack.compare y.toModel.unpack = some .eq := by
  show (x.toModel.unpack.compare y.toModel.unpack == _) = true ↔ _
  rw [beq_iff_eq]

theorem isNaN_iff_unpack : x.isNaN = true ↔ x.toModel.unpack = .notANumber := by
  rw [unpack_eq_notANumber, isNaN_iff]

/-- Numbers cannot be compared if one of them is not a number. -/
theorem compare_unpack_eq_none_iff :
    x.toModel.unpack.compare y.toModel.unpack = none ↔ x.isNaN = true ∨ y.isNaN = true := by
  rw [compare_eq_none_iff, isNaN_iff_unpack, isNaN_iff_unpack]

/-- A number that is not less than another is at least as large, or the two cannot be compared. -/
theorem not_lt_iff : ¬ x < y ↔ y ≤ x ∨ x.isNaN = true ∨ y.isNaN = true := by
  rw [lt_iff_compare, le_iff_compare, compare_swap x.toModel.unpack, ← compare_unpack_eq_none_iff]
  cases x.toModel.unpack.compare y.toModel.unpack with
  | none => simp
  | some o => cases o <;> simp

theorem not_lt_of_isNaN (h : x.isNaN = true ∨ y.isNaN = true) : ¬ x < y :=
  not_lt_iff.mpr (.inr h)

theorem not_le_of_isNaN (h : x.isNaN = true ∨ y.isNaN = true) : ¬ x ≤ y := by
  rw [le_iff_compare, compare_unpack_eq_none_iff.mpr h]
  simp

theorem lt_asymm (h : x < y) : ¬ y < x := by
  rw [lt_iff_compare] at h ⊢
  rw [compare_swap x.toModel.unpack, h]
  simp

/-- A number that is not equal to zero is positive or negative. -/
theorem pos_or_neg (h : (x == 0) = false) : 0 < x ∨ x < 0 ∨ x.isNaN = true := by
  have hzero : (0 : Float).isNaN = false := by decide +kernel
  rw [lt_iff_compare, lt_iff_compare, compare_swap x.toModel.unpack]
  cases hcompare : x.toModel.unpack.compare (0 : Float).toModel.unpack with
  | none =>
    have hnan := compare_unpack_eq_none_iff.mp hcompare
    rw [hzero] at hnan
    exact .inr (.inr (hnan.resolve_right Bool.false_ne_true))
  | some o =>
    cases o with
    | lt => exact .inr (.inl rfl)
    | eq =>
      rw [beq_iff_compare.mpr hcompare] at h
      cases h
    | gt => exact .inl rfl

/-- A number with a negative sign is not positive. -/
theorem nonpos_of_isNegative (hsign : isNegative x = true) (hnan : x.isNaN = false) :
    x ≤ 0 ∧ x < 1 := by
  let u : Bits := x.toBits.toBitVec
  have hb : u.toNat % signBit = magnitude x := rfl
  have hunpack : x.toModel.unpack = unpack Format.binary64 u := rfl
  have hnegative : Sign.ofBitVec (unpackSign u) = .negative := by
    have hle : signBit ≤ u.toNat := of_decide_eq_true hsign
    have hlt : u.toNat < 2 * signBit := u.isLt
    have hbit : unpackSign u = 1#1 := by
      apply BitVec.eq_of_toNat_eq
      rw [toNat_unpackSign, Nat.div_eq_of_lt_le (k := 1) (by omega) (by omega)]
      rfl
    rw [hbit]
    rfl
  have hle : magnitude x ≤ infinityMagnitude :=
    Nat.le_of_not_lt (mt isNaN_iff.mpr (by rw [hnan]; decide))
  obtain ⟨sign, hzero⟩ := exists_unpack_eq_zero.mpr magnitude_zero
  obtain ⟨m, e, hm, hone⟩ : ∃ m e hm, (1 : Float).toModel.unpack = .finite .positive m e hm := by
    have hbits : (1 : Float) = ofMagnitude false (1023 * leadingBit) :=
      eq_ofMagnitude (by decide +kernel)
    rw [hbits]
    rcases unpack_cases (b := 1023 * leadingBit) (by decide) with
      ⟨hzero, -⟩ | ⟨-, hm, hfinite⟩ | ⟨htop, -⟩
    · exact absurd hzero (by decide)
    · exact ⟨_, _, hm, hfinite⟩
    · exact absurd htop (by decide)
  rw [le_iff_compare, lt_iff_compare, hunpack, hzero, hone]
  rcases Nat.eq_or_lt_of_le hle with htop | hlt
  · rw [unpack_infinity hb htop, hnegative]
    exact ⟨rfl, rfl⟩
  · rcases Nat.eq_zero_or_pos (magnitude x) with hnone | hpos
    · rw [unpack_zero hb hnone, hnegative]
      exact ⟨rfl, rfl⟩
    · obtain ⟨hm', hfinite⟩ := unpack_finite hb hpos hlt
      rw [hfinite, hnegative]
      exact ⟨rfl, rfl⟩

/-! ## Sums -/

theorem isNaN_add (h : x.isNaN = true ∨ y.isNaN = true) : (x + y).isNaN = true := by
  rw [isNaN_iff_unpack, isNaN_iff_unpack] at h
  have hadd : UnpackedFloat.add Format.binary64 x.toModel.unpack y.toModel.unpack =
      .notANumber := by
    rcases h with h | h
    · rw [h]
      rfl
    · rw [h]
      cases x.toModel.unpack <;> rfl
  show (Float.Model.pack
      (UnpackedFloat.add Format.binary64 x.toModel.unpack y.toModel.unpack)).isNaN = true
  rw [hadd]
  decide +kernel

end LineBasic.Number
