import LineBasic.Number.Layout
import LineBasic.Proofs.Number.Shortest
import Mathlib.Data.List.TakeWhile

/-!
# How numbers are written

A decimal is written as digits with a point, and an exponent unless it is of a middling size
(`Decimal.exists_layOut`). Digits with a point are read as the number nearest to their value
(`IsPointed.ofText?_eq`). A number from `0.0001` up to a million is written this way, with the
digits of its shortest decimal, and so it is read as the same number again
(`exists_pointed_toText`).
-/

namespace LineBasic.Number

/-! ## Digits with a point -/

/-- Digits with a point before those of the fraction. -/
def pointed (whole fraction : List Char) : List Char :=
  if fraction.isEmpty then whole else whole ++ '.' :: fraction

/-- Digits of a number, at least one of them before the point. -/
structure IsPointed (whole fraction : List Char) : Prop where
  ne_nil : whole ≠ []
  whole : ∀ c ∈ whole, c.isDigit = true
  fraction : ∀ c ∈ fraction, c.isDigit = true

theorem ofDigitChars_append_zeros (ds : List Char) (n : Nat) :
    Nat.ofDigitChars 10 (ds ++ List.replicate n '0') 0 = 10 ^ n * Nat.ofDigitChars 10 ds 0 := by
  rw [Nat.ofDigitChars_append, Nat.ofDigitChars_replicate_zero]

theorem ofDigitChars_zeros_append (ds : List Char) (n : Nat) :
    Nat.ofDigitChars 10 (List.replicate n '0' ++ ds) 0 = Nat.ofDigitChars 10 ds 0 := by
  rw [Nat.ofDigitChars_append, Nat.ofDigitChars_replicate_zero, Nat.mul_zero]

theorem isDigit_of_mem_replicate {n : Nat} {c : Char} (h : c ∈ List.replicate n '0') :
    c.isDigit = true := by
  rw [List.eq_of_mem_replicate h]
  rfl

/-- Digits are written without an exponent as digits with a point, which have the same value. -/
theorem exists_pointed {ds : List Char} (hds : ∀ c ∈ ds, c.isDigit = true) (hne : ds ≠ [])
    (power : ℤ) :
    ∃ whole fraction, positional ds power = pointed whole fraction ∧ IsPointed whole fraction ∧
      (Nat.ofDigitChars 10 (whole ++ fraction) 0 : ℚ) * 10 ^ (-(fraction.length : ℤ)) =
        Nat.ofDigitChars 10 ds 0 * 10 ^ (power + 1 - ds.length) := by
  unfold positional
  by_cases hpower : power < 0
  · refine ⟨['0'], List.replicate (-power - 1).toNat '0' ++ ds, ?_, ⟨by simp, by simp, ?_⟩, ?_⟩
    · rw [if_pos hpower, pointed, if_neg (by simp [hne])]
      rfl
    · exact List.forall_mem_append.mpr ⟨fun c hc => isDigit_of_mem_replicate hc, hds⟩
    · have hzero : Nat.ofDigitChars 10 (['0'] ++ (List.replicate (-power - 1).toNat '0' ++ ds)) 0 =
          Nat.ofDigitChars 10 ds 0 := by
        rw [← List.append_assoc]
        exact ofDigitChars_zeros_append ds ((-power - 1).toNat + 1)
      rw [hzero, List.length_append, List.length_replicate]
      congr 2
      push_cast
      omega
  · rw [if_neg hpower]
    dsimp only
    by_cases hlength : ds.length ≤ power.toNat + 1
    · refine ⟨ds ++ List.replicate (power.toNat + 1 - ds.length) '0', [], ?_,
        ⟨by simp [hne], ?_, by simp⟩, ?_⟩
      · rw [if_pos hlength]
        rfl
      · exact List.forall_mem_append.mpr ⟨hds, fun c hc => isDigit_of_mem_replicate hc⟩
      · rw [List.append_nil, ofDigitChars_append_zeros, List.length_nil]
        push_cast
        rw [mul_one, mul_comm, ← zpow_natCast]
        congr 2
        omega
    · refine ⟨ds.take (power.toNat + 1), ds.drop (power.toNat + 1), ?_, ⟨?_, ?_, ?_⟩, ?_⟩
      · rw [if_neg hlength, pointed, if_neg (by simp; omega)]
      · simp [hne]
      · exact fun c hc => hds c (List.mem_of_mem_take hc)
      · exact fun c hc => hds c (List.mem_of_mem_drop hc)
      · rw [List.take_append_drop, List.length_drop]
        congr 2
        omega

/-! ## Reading digits with a point -/

section unsigned

variable {c : Char} (hc : c.isDigit = true ∨ c = '.')
include hc

theorem ne_of_unsigned {d : Char} (hd : d.isDigit = false) (hpoint : d ≠ '.') : c ≠ d := by
  rintro rfl
  rcases hc with hc | hc
  · rw [hc] at hd
    cases hd
  · exact hpoint hc

/-- A text that begins with a digit or a point is no name. -/
theorem magnitudeOf?_of_unsigned (cs : List Char) :
    magnitudeOf? (c :: cs) = (Decimal.ofText? (c :: cs)).map Decimal.toMagnitude := by
  have hlower : c.toLower = c := by
    rcases hc with hc | rfl
    · simp only [Char.isDigit, Bool.and_eq_true, decide_eq_true_eq, ge_iff_le,
        UInt32.le_iff_toNat_le] at hc
      unfold Char.toLower
      simp only [ge_iff_le, UInt32.le_iff_toNat_le]
      simp at hc ⊢
      omega
    · decide
  have hname : ∀ (d : Char) (ds : List Char), d.isDigit = false → d ≠ '.' →
      String.ofList ((c :: cs).map Char.toLower) ≠ String.ofList (d :: ds) := by
    intro d ds hd hpoint heq
    rw [List.map_cons, hlower] at heq
    exact ne_of_unsigned hc hd hpoint (List.cons.inj (String.ofList_inj.mp heq)).1
  have hinf := hname 'i' ['n', 'f'] (by decide) (by decide)
  have hinfinity := hname 'i' ['n', 'f', 'i', 'n', 'i', 't', 'y'] (by decide) (by decide)
  have hnan := hname 'n' ['a', 'n'] (by decide) (by decide)
  have hinfinite : ¬ (decide (String.ofList ((c :: cs).map Char.toLower) = "inf") ||
      decide (String.ofList ((c :: cs).map Char.toLower) = "infinity")) = true := by
    rw [Bool.or_eq_true, decide_eq_true_eq, decide_eq_true_eq]
    exact not_or.mpr ⟨hinf, hinfinity⟩
  rw [magnitudeOf?, if_neg hinfinite, if_neg hnan]

/-- It has no sign either. -/
theorem ofText?_of_unsigned (cs : List Char) :
    ofText? (c :: cs) = (magnitudeOf? (c :: cs)).map (ofMagnitude false) := by
  have hsign : splitSign (c :: cs) = (false, c :: cs) := by
    unfold splitSign
    split
    · rename_i heq
      exact absurd (List.cons.inj heq).1 (ne_of_unsigned hc (by decide) (by decide))
    · rename_i heq
      exact absurd (List.cons.inj heq).1 (ne_of_unsigned hc (by decide) (by decide))
    · rfl
  rw [ofText?, hsign]

end unsigned

theorem Decimal.toMagnitude_le (d : Decimal) : d.toMagnitude ≤ infinityMagnitude := by
  unfold Decimal.toMagnitude
  split
  · exact Nat.zero_le _
  · split
    · exact Nat.le_refl _
    · split
      · exact Nat.zero_le _
      · unfold nearestMagnitude
        split
        · exact Nat.zero_le _
        · exact Nat.min_le_right _ _

/-- What digits and points spell is a number without a sign. -/
theorem exists_ofMagnitude_of_ofText? {cs : List Char} {x : Float}
    (hcs : ∀ c ∈ cs, c.isDigit = true ∨ c = '.') (h : ofText? cs = some x) :
    ∃ b ≤ infinityMagnitude, x = ofMagnitude false b := by
  cases cs with
  | nil => cases h
  | cons c cs =>
    have hc := hcs c List.mem_cons_self
    rw [ofText?_of_unsigned hc, magnitudeOf?_of_unsigned hc, Option.map_map] at h
    obtain ⟨d, _, rfl⟩ := Option.map_eq_some_iff.mp h
    exact ⟨d.toMagnitude, d.toMagnitude_le, rfl⟩

section pointed

variable {whole fraction : List Char} (h : IsPointed whole fraction)
include h

/-- Digits with a point are read up to their end, and what follows them as an exponent. -/
theorem IsPointed.ofText?_append (rest : List Char)
    (hrest : ∀ c ∈ rest.head?, c.isDigit = false ∧ c ≠ '.') :
    Decimal.ofText? (pointed whole fraction ++ rest) =
      (exponentOf? rest).map fun e =>
        ⟨Nat.ofDigitChars 10 (whole ++ fraction) 0, e - fraction.length⟩ := by
  have htake : ∀ cs, (whole ++ cs).takeWhile Char.isDigit = whole ++ cs.takeWhile Char.isDigit :=
    fun cs => List.takeWhile_append_of_pos h.whole
  have hdrop : ∀ cs, (whole ++ cs).dropWhile Char.isDigit = cs.dropWhile Char.isDigit :=
    fun cs => List.dropWhile_append_of_pos h.whole
  have hpoint : Char.isDigit '.' = false := by decide
  have hrest' : rest.takeWhile Char.isDigit = [] ∧ rest.dropWhile Char.isDigit = rest ∧
      splitFraction rest = ([], rest) := by
    cases rest with
    | nil => exact ⟨rfl, rfl, rfl⟩
    | cons c cs =>
      obtain ⟨hc, hne⟩ := hrest c rfl
      simp [hc, splitFraction, hne]
  obtain ⟨htakeRest, hdropRest, hsplit⟩ := hrest'
  unfold pointed Decimal.ofText?
  cases fraction with
  | nil => simp [htake, hdrop, htakeRest, hdropRest, hsplit, h.ne_nil, ofDigits_eq_ofDigitChars]
  | cons d ds =>
    have hfraction : ((d :: ds) ++ rest).takeWhile Char.isDigit = d :: ds := by
      rw [List.takeWhile_append_of_pos h.fraction, htakeRest, List.append_nil]
    have hafter : ((d :: ds) ++ rest).dropWhile Char.isDigit = rest := by
      rw [List.dropWhile_append_of_pos h.fraction, hdropRest]
    simp only [List.cons_append] at hfraction hafter
    simp [htake, hdrop, splitFraction, hpoint, hfraction, hafter, ofDigits_eq_ofDigitChars]

theorem IsPointed.ofText?_decimal :
    Decimal.ofText? (pointed whole fraction) =
      some ⟨Nat.ofDigitChars 10 (whole ++ fraction) 0, -(fraction.length : ℤ)⟩ := by
  have hall := h.ofText?_append [] (by simp)
  simpa [exponentOf?] using hall

theorem IsPointed.exists_cons : ∃ c cs, pointed whole fraction = c :: cs ∧ c.isDigit = true := by
  obtain ⟨c, cs, rfl⟩ := List.exists_cons_of_ne_nil h.ne_nil
  refine ⟨c, if fraction.isEmpty then cs else cs ++ '.' :: fraction, ?_,
    h.whole c List.mem_cons_self⟩
  unfold pointed
  split <;> rfl

theorem IsPointed.isDigit_or_eq {c : Char} (hc : c ∈ pointed whole fraction) :
    c.isDigit = true ∨ c = '.' := by
  unfold pointed at hc
  split at hc
  · exact .inl (h.whole c hc)
  · rcases List.mem_append.mp hc with hwhole | hrest
    · exact .inl (h.whole c hwhole)
    · rcases List.mem_cons.mp hrest with hpoint | hfraction
      · exact .inr hpoint
      · exact .inl (h.fraction c hfraction)

/-- Digits with a point are read as a number without a sign. -/
theorem IsPointed.ofText?_eq : ofText? (pointed whole fraction) =
    some (ofMagnitude false
      (Decimal.toMagnitude ⟨Nat.ofDigitChars 10 (whole ++ fraction) 0,
        -(fraction.length : ℤ)⟩)) := by
  have hdecimal := h.ofText?_decimal
  obtain ⟨c, cs, hcons, hc⟩ := h.exists_cons
  rw [hcons] at hdecimal ⊢
  rw [ofText?_of_unsigned (.inl hc), magnitudeOf?_of_unsigned (.inl hc), hdecimal]
  rfl

end pointed

/-! ## Writing a number -/

theorem exists_dropZeros_append (ds : List Char) :
    ∃ n, ds = dropZeros ds ++ List.replicate n '0' := by
  refine ⟨(ds.reverse.takeWhile (· == '0')).length, ?_⟩
  have hzeros : ds.reverse.takeWhile (· == '0') =
      List.replicate (ds.reverse.takeWhile (· == '0')).length '0' := by
    apply List.eq_replicate_of_mem
    intro c hc
    simpa using List.mem_takeWhile_imp hc
  have hsplit : ds.reverse.takeWhile (· == '0') ++ ds.reverse.dropWhile (· == '0') = ds.reverse :=
    List.takeWhile_append_dropWhile
  rw [dropZeros]
  rw [← List.reverse_inj, List.reverse_append, List.reverse_reverse, List.reverse_replicate,
    ← hzeros, hsplit]

theorem isDigit_of_mem_dropZeros {n : Nat} {c : Char} (h : c ∈ dropZeros (Nat.toDigits 10 n)) :
    c.isDigit = true := by
  obtain ⟨zeros, hzeros⟩ := exists_dropZeros_append (Nat.toDigits 10 n)
  apply Nat.isDigit_of_mem_toDigits (b := 10) (n := n) (by decide) (by decide)
  rw [hzeros]
  exact List.mem_append_left _ h

theorem dropZeros_toDigits_ne_nil {n : Nat} (h : 0 < n) : dropZeros (Nat.toDigits 10 n) ≠ [] := by
  intro hnil
  obtain ⟨zeros, hzeros⟩ := exists_dropZeros_append (Nat.toDigits 10 n)
  have hvalue := Nat.ofDigitChars_ten_toDigits (n := n)
  rw [hzeros, hnil, List.nil_append, Nat.ofDigitChars_replicate_zero, Nat.mul_zero] at hvalue
  omega

/-- The digits of a decimal without the zeros at their end have the same value, with the power of
the first digit. -/
theorem Decimal.value_eq (d : Decimal) :
    d.value = Nat.ofDigitChars 10 (dropZeros (Nat.toDigits 10 d.digits)) 0 *
      10 ^ (d.exponent + (Nat.toDigits 10 d.digits).length - 1 + 1 -
        (dropZeros (Nat.toDigits 10 d.digits)).length) := by
  obtain ⟨n, hn⟩ := exists_dropZeros_append (Nat.toDigits 10 d.digits)
  have hdigits : d.digits = 10 ^ n *
      Nat.ofDigitChars 10 (dropZeros (Nat.toDigits 10 d.digits)) 0 := by
    rw [← ofDigitChars_append_zeros, ← hn, Nat.ofDigitChars_ten_toDigits]
  have hlength : (Nat.toDigits 10 d.digits).length =
      (dropZeros (Nat.toDigits 10 d.digits)).length + n := by
    conv_lhs => rw [hn]
    simp
  generalize dropZeros (Nat.toDigits 10 d.digits) = ds at hdigits hlength
  rw [hlength, value, hdigits]
  push_cast
  rw [mul_comm ((10 : ℚ) ^ n), mul_assoc, ← zpow_natCast, ← zpow_add₀ (by norm_num)]
  congr 2
  omega

/-- A decimal lies between the power of its first digit and the next one. -/
theorem Decimal.value_bounds {d : Decimal} (h : 0 < d.digits) :
    (10 : ℚ) ^ (d.exponent + (Nat.toDigits 10 d.digits).length - 1) ≤ d.value ∧
      d.value < 10 ^ (d.exponent + (Nat.toDigits 10 d.digits).length) := by
  have hlength := Nat.length_toDigits_pos (b := 10) (n := d.digits)
  have hlow : 10 ^ ((Nat.toDigits 10 d.digits).length - 1) ≤ d.digits := by
    rcases Nat.eq_or_lt_of_le hlength with hone | hmore
    · rw [← hone]
      exact h
    · by_contra hlt
      have hle :=
        (Nat.length_toDigits_le_iff (b := 10) (n := d.digits) (by decide)
          (Nat.sub_pos_of_lt hmore)).mpr
        (Nat.lt_of_not_le hlt)
      omega
  have hhigh : d.digits < 10 ^ (Nat.toDigits 10 d.digits).length :=
    (Nat.length_toDigits_le_iff (by decide) hlength).mp (Nat.le_refl _)
  have hlow' : (10 : ℚ) ^ ((Nat.toDigits 10 d.digits).length - 1) ≤ d.digits := by
    exact_mod_cast hlow
  have hhigh' : (d.digits : ℚ) < 10 ^ (Nat.toDigits 10 d.digits).length := by exact_mod_cast hhigh
  have hten : (10 : ℚ) ≠ 0 := by norm_num
  rw [value]
  constructor
  · calc (10 : ℚ) ^ (d.exponent + (Nat.toDigits 10 d.digits).length - 1)
        = 10 ^ ((Nat.toDigits 10 d.digits).length - 1) * 10 ^ d.exponent := by
          rw [← zpow_natCast, ← zpow_add₀ hten]
          congr 1
          omega
      _ ≤ d.digits * 10 ^ d.exponent := by gcongr
  · calc (d.digits : ℚ) * 10 ^ d.exponent <
      10 ^ (Nat.toDigits 10 d.digits).length * 10 ^ d.exponent := by gcongr
      _ = 10 ^ (d.exponent + (Nat.toDigits 10 d.digits).length) := by
          rw [← zpow_natCast, ← zpow_add₀ hten, add_comm]

/-- An exponent as it is written. -/
def exponentText (layout : Layout) (power : ℤ) : List Char :=
  'e' :: (if power < 0 then '-' else '+') ::
    padDigits layout.exponentWidth (Nat.toDigits 10 power.natAbs)

theorem scientific_eq (layout : Layout) (ds : List Char) (power : ℤ) :
    scientific layout ds power = positional ds 0 ++ exponentText layout power := rfl

/-- What a positive decimal is written as: digits with a point, and an exponent outside of the
layout's bounds. -/
theorem Decimal.exists_layOut {d : Decimal} (layout : Layout) (hpos : 0 < d.digits) :
    ∃ whole fraction power rest, d.layOut layout = pointed whole fraction ++ rest ∧
      IsPointed whole fraction ∧
      (⟨Nat.ofDigitChars 10 (whole ++ fraction) 0, power - fraction.length⟩ : Decimal).value =
        d.value ∧
      if layout.least ≤ d.exponent + (Nat.toDigits 10 d.digits).length - 1 ∧
          d.exponent + (Nat.toDigits 10 d.digits).length - 1 < layout.limit then rest =
            [] ∧ power = 0
      else rest = exponentText layout power ∧
        power = d.exponent + (Nat.toDigits 10 d.digits).length - 1 := by
  have hpointed :=
    exists_pointed (fun _ => isDigit_of_mem_dropZeros) (dropZeros_toDigits_ne_nil hpos)
  have hvalue := value_eq d
  unfold layOut
  dsimp only
  generalize d.exponent + (Nat.toDigits 10 d.digits).length - 1 = power at hvalue ⊢
  split
  · obtain ⟨whole, fraction, htext, hdigits, hsame⟩ := hpointed power
    refine ⟨whole, fraction, 0, [], ?_, hdigits, ?_, rfl, rfl⟩
    · rw [htext, List.append_nil]
    · rw [value, zero_sub, hsame, hvalue]
  · obtain ⟨whole, fraction, htext, hdigits, hsame⟩ := hpointed 0
    refine ⟨whole, fraction, power, exponentText layout power, ?_, hdigits, ?_, rfl, rfl⟩
    · rw [scientific_eq, htext]
    · have hten : (10 : ℚ) ≠ 0 := by norm_num
      rw [value, sub_eq_add_neg, add_comm, zpow_add₀ hten, ← mul_assoc, hsame, mul_assoc,
        ← zpow_add₀ hten, hvalue]
      congr 2
      omega

/-- A decimal from `0.0001` up to a million is written with a point and no exponent, as digits of
the same value. -/
theorem Decimal.exists_pointed_layOut {d : Decimal} (hlow : 10 ^ (-4 : ℤ) ≤ d.value)
    (hhigh : d.value < 10 ^ (6 : ℤ)) :
    ∃ whole fraction, d.layOut .basic = pointed whole fraction ∧ IsPointed whole fraction ∧
      (⟨Nat.ofDigitChars 10 (whole ++ fraction) 0, -(fraction.length : ℤ)⟩ : Decimal).value =
        d.value := by
  have hpos : 0 < d.digits := digits_pos (lt_of_lt_of_le (by positivity) hlow)
  obtain ⟨hfirst, hnext⟩ := value_bounds hpos
  have hone : (1 : ℚ) < 10 := by norm_num
  have hleast : -4 < d.exponent + (Nat.toDigits 10 d.digits).length :=
    (zpow_lt_zpow_iff_right₀ hone).mp (hlow.trans_lt hnext)
  have hlimit : d.exponent + (Nat.toDigits 10 d.digits).length - 1 < 6 :=
    (zpow_lt_zpow_iff_right₀ hone).mp (hfirst.trans_lt hhigh)
  have hleast' : -4 ≤ d.exponent + (Nat.toDigits 10 d.digits).length - 1 := by omega
  obtain ⟨whole, fraction, power, rest, htext, hpointed, hvalue, hrest⟩ := exists_layOut .basic hpos
  rw [if_pos ⟨hleast', hlimit⟩] at hrest
  obtain ⟨rfl, rfl⟩ := hrest
  rw [List.append_nil] at htext
  rw [zero_sub] at hvalue
  exact ⟨whole, fraction, htext, hpointed, hvalue⟩

/-- A number that is written without an exponent. -/
def IsPlain (x : Float) : Prop :=
  x == 0 ∨ 1e-4 ≤ x.abs ∧ x.abs < 1e6

/-- The magnitude of `0.0001`, whose exact value is a little larger. -/
def plainLeast : Nat := 4547007122018943789

/-- The magnitude of a million. -/
def plainLimit : Nat := 4696837146684686336

theorem zero_eq_ofMagnitude : (0 : Float) = ofMagnitude false 0 := by decide +kernel

theorem exists_one_eq_ofMagnitude : ∃ b ≤ infinityMagnitude, (1 : Float) = ofMagnitude false b :=
  ⟨4607182418800017408, by decide, by decide +kernel⟩

theorem isPlain_iff {b : Nat} (h : b ≤ infinityMagnitude) :
    IsPlain (ofMagnitude false b) ↔ b = 0 ∨ plainLeast ≤ b ∧ b < plainLimit := by
  have hleast : (1e-4 : Float) = ofMagnitude false plainLeast := by decide +kernel
  have hlimit : (1e6 : Float) = ofMagnitude false plainLimit := by decide +kernel
  rw [IsPlain, abs_ofMagnitude h, zero_eq_ofMagnitude, hleast, hlimit,
    ofMagnitude_beq_iff h (Nat.zero_le _), ofMagnitude_le_iff (by decide) h,
    ofMagnitude_lt_iff h (by decide)]

/-- The shortest decimals of plain numbers are from `0.0001` up to a million. -/
theorem shortest_bounds {b : Nat} (hleast : plainLeast ≤ b) (hlimit : b < plainLimit) :
    10 ^ (-4 : ℤ) ≤ (shortest b).value ∧ (shortest b).value < 10 ^ (6 : ℤ) := by
  have hpos : 0 < b := Nat.lt_of_lt_of_le (by decide) hleast
  have hholds := holds_shortest hpos
  constructor
  · rcases Nat.eq_or_lt_of_le hleast with rfl | hlt
    · have hshortest : shortest plainLeast = ⟨1, -4⟩ := by decide +kernel
      rw [hshortest, Decimal.value]
      norm_num
    · have hdyadic : Dyadic.ofMagnitude plainLeast = ⟨7378697629483821, -66⟩ := by decide
      have hvalue : (10 : ℚ) ^ (-4 : ℤ) < (Dyadic.ofMagnitude plainLeast).value := by
        rw [hdyadic, Dyadic.value]
        norm_num
      exact (hvalue.trans (hholds.value_lt (by decide) hlt)).le
  · have hdyadic : Dyadic.ofMagnitude plainLimit = ⟨8589934592000000, -33⟩ := by decide
    have hvalue : (Dyadic.ofMagnitude plainLimit).value = 10 ^ (6 : ℤ) := by
      rw [hdyadic, Dyadic.value]
      norm_num
    rw [← hvalue]
    exact hholds.lt_value hpos hlimit

/-- A plain number is written as digits with a point, and these are read as the number again. -/
theorem exists_pointed_toText {b : Nat} (hb : b ≤ infinityMagnitude)
    (h : IsPlain (ofMagnitude false b)) :
    ∃ whole fraction, (toText .basic (ofMagnitude false b)).toList = pointed whole fraction ∧
      IsPointed whole fraction ∧ ofText? (pointed whole fraction) = some (ofMagnitude false b) := by
  rcases (isPlain_iff hb).mp h with rfl | ⟨hleast, hlimit⟩
  · have hpointed : IsPointed ['0'] [] := ⟨by simp, by simp, by simp⟩
    refine ⟨['0'], [], ?_, hpointed, hpointed.ofText?_eq⟩
    rw [toText, magnitude_ofMagnitude hb]
    rfl
  · have hpos : 0 < b := Nat.lt_of_lt_of_le (by decide) hleast
    have hlt : b < infinityMagnitude := hlimit.trans (by decide)
    obtain ⟨hlow, hhigh⟩ := shortest_bounds hleast hlimit
    obtain ⟨whole, fraction, hlayOut, hpointed, hvalue⟩ := Decimal.exists_pointed_layOut hlow hhigh
    refine ⟨whole, fraction, ?_, hpointed, ?_⟩
    · rw [toText, magnitude_ofMagnitude hb]
      dsimp only
      rw [if_neg hpos.ne', if_neg (Nat.not_lt_of_le hb), if_neg hlt.ne,
        isNegative_ofMagnitude hb, hlayOut]
      rw [String.toList_ofList]
      rfl
    · rw [hpointed.ofText?_eq, Decimal.toMagnitude_of_holds hpos hlt (hvalue ▸ holds_shortest hpos)]

end LineBasic.Number
