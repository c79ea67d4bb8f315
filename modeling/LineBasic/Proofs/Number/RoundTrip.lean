import LineBasic.Proofs.Environment.FirstFailure
import LineBasic.Proofs.Number.Signed
import LineBasic.Proofs.Number.Written
import LineBasic.Proofs.Token.Newline

/-!
# Numbers are read as they are written

The text of a number has the digits of its shortest decimal, with an exponent or without. Either way
it is read as a decimal of the same value (`Decimal.exists_ofText?_layOut`), and so as the number
itself (`ofText?_toText`). Only a zero loses its sign. So a text is shared by numbers that are equal
to each other, and by all that is not a number, but by no others (`number_text_roundTrip`).
-/

namespace LineBasic

theorem Text.trim_of_not_isBlank {cs : List Char} (h : ∀ c ∈ cs, isBlank c = false) :
    trim cs = cs := by
  have hstart : trimStart cs = cs := by
    cases cs with
    | nil => rfl
    | cons c cs => exact trimStart_of_not_isBlank (h c List.mem_cons_self)
  have hend : trimStart cs.reverse = cs.reverse := by
    cases hcs : cs.reverse with
    | nil => rfl
    | cons c rest =>
      exact trimStart_of_not_isBlank (h c (List.mem_reverse.mp (hcs ▸ List.mem_cons_self)))
  rw [trim, hstart]
  exact List.reverse_eq_iff.mpr hend

theorem Text.isBlank_of_isDigit {c : Char} (h : c.isDigit = true) : isBlank c = false := by
  by_contra hblank
  rw [Bool.not_eq_false] at hblank
  rw [isDigit_of_isBlank hblank] at h
  cases h

namespace Number

variable {layout : Layout} {d : Decimal}

/-! ## Exponents -/

theorem isDigit_of_mem_padDigits {width n : Nat} {c : Char}
    (h : c ∈ padDigits width (Nat.toDigits 10 n)) : c.isDigit = true := by
  rcases List.mem_append.mp h with hzero | hdigit
  · exact isDigit_of_mem_replicate hzero
  · exact Nat.isDigit_of_mem_toDigits (by decide) (by decide) hdigit

theorem ofDigits_padDigits (width n : Nat) :
    ofDigits (padDigits width (Nat.toDigits 10 n)) = n := by
  rw [ofDigits_eq_ofDigitChars, padDigits, ofDigitChars_zeros_append, Nat.ofDigitChars_ten_toDigits]

theorem exponentOf?_exponentText {power : ℤ} (h : power.natAbs < exponentCeiling) :
    exponentOf? (exponentText layout power) = some power := by
  have hne : padDigits layout.exponentWidth (Nat.toDigits 10 power.natAbs) ≠ [] := by
    have hlength := Nat.length_toDigits_pos (b := 10) (n := power.natAbs)
    rw [padDigits, Ne, List.append_eq_nil_iff]
    exact fun hnil => hlength.ne' (List.length_eq_zero_iff.mpr hnil.2)
  have hall : (padDigits layout.exponentWidth (Nat.toDigits 10 power.natAbs)).all Char.isDigit =
      true :=
    List.all_eq_true.mpr fun _ => isDigit_of_mem_padDigits
  have hsize : exponentSize (padDigits layout.exponentWidth (Nat.toDigits 10 power.natAbs)) =
      power.natAbs := by
    have hdigits := ofDigits_padDigits layout.exponentWidth power.natAbs
    rw [exponentSize_eq_ofDigits (hdigits.symm ▸ h), hdigits]
  unfold exponentText exponentOf?
  by_cases hneg : power < 0
  · simp [hneg, splitSign, hne, hall, hsize, abs_of_neg hneg]
  · simp [hneg, splitSign, hne, hall, hsize, abs_of_nonneg (not_lt.mp hneg)]

/-! ## Decimals -/

/-- The text of a decimal is read as a decimal of the same value, unless its exponent is too large
to be read in full. -/
theorem Decimal.exists_ofText?_layOut (layout : Layout) (hpos : 0 < d.digits)
    (hpower : (d.exponent + (Nat.toDigits 10 d.digits).length - 1).natAbs < exponentCeiling) :
    ∃ d', Decimal.ofText? (d.layOut layout) = some d' ∧ d'.value = d.value := by
  obtain ⟨whole, fraction, power, rest, htext, hpointed, hvalue, hrest⟩ := exists_layOut layout hpos
  refine ⟨_, ?_, hvalue⟩
  obtain ⟨hexponent, hhead⟩ :
      exponentOf? rest = some power ∧ ∀ c ∈ rest.head?, c.isDigit = false ∧ c ≠ '.' := by
    split at hrest
    · obtain ⟨rfl, rfl⟩ := hrest
      exact ⟨rfl, by simp⟩
    · obtain ⟨rfl, rfl⟩ := hrest
      refine ⟨exponentOf?_exponentText hpower, ?_⟩
      rintro c hc
      obtain rfl : 'e' = c := Option.some.inj hc
      decide
  rw [htext, hpointed.ofText?_append rest hhead, hexponent]
  rfl

theorem Decimal.exists_cons_layOut (layout : Layout) (hpos : 0 < d.digits) :
    ∃ c cs, d.layOut layout = c :: cs ∧ c.isDigit = true := by
  obtain ⟨whole, fraction, _, rest, htext, hpointed, -, -⟩ := exists_layOut layout hpos
  obtain ⟨c, cs, hcons, hc⟩ := hpointed.exists_cons
  exact ⟨c, cs ++ rest, by rw [htext, hcons, List.cons_append], hc⟩

theorem Decimal.isBlank_of_mem_layOut (hpos : 0 < d.digits) {c : Char} (h : c ∈ d.layOut layout) :
    Text.isBlank c = false := by
  obtain ⟨whole, fraction, power, rest, htext, hpointed, -, hrest⟩ := exists_layOut layout hpos
  rw [htext] at h
  rcases List.mem_append.mp h with hmem | hmem
  · rcases hpointed.isDigit_or_eq hmem with hdigit | rfl
    · exact Text.isBlank_of_isDigit hdigit
    · decide
  · split at hrest
    · rw [hrest.1] at hmem
      cases hmem
    · rw [hrest.1] at hmem
      rcases List.mem_cons.mp hmem with rfl | hmem
      · decide
      · rcases List.mem_cons.mp hmem with rfl | hmem
        · split <;> decide
        · exact Text.isBlank_of_isDigit (isDigit_of_mem_padDigits hmem)

/-! ## Numbers -/

section finite

variable {b : Nat} (hb : 0 < b) (hlt : b < infinityMagnitude)
include hb hlt

theorem digits_shortest_pos : 0 < (shortest b).digits :=
  Decimal.digits_pos (lt_trans (by positivity) ((holds_shortest hb).bounds hb hlt).1)

/-- The exponents of finite numbers have three digits at most. -/
theorem natAbs_power_shortest_lt :
    ((shortest b).exponent + (Nat.toDigits 10 (shortest b).digits).length - 1).natAbs <
      exponentCeiling := by
  obtain ⟨hlow, hhigh⟩ := (holds_shortest hb).bounds hb hlt
  obtain ⟨hfirst, hnext⟩ := Decimal.value_bounds (digits_shortest_pos hb hlt)
  have hone : (1 : ℚ) < 10 := by norm_num
  have hleast := (zpow_lt_zpow_iff_right₀ hone).mp (hlow.trans hnext)
  have hmost := (zpow_lt_zpow_iff_right₀ hone).mp (hfirst.trans_lt hhigh)
  rw [exponentCeiling]
  omega

/-- The text of a finite number is read as its magnitude. -/
theorem magnitudeOf?_layOut (layout : Layout) :
    magnitudeOf? ((shortest b).layOut layout) = some b := by
  obtain ⟨d, hd, hvalue⟩ := Decimal.exists_ofText?_layOut layout (digits_shortest_pos hb hlt)
    (natAbs_power_shortest_lt hb hlt)
  obtain ⟨c, cs, hcons, hc⟩ := Decimal.exists_cons_layOut layout (digits_shortest_pos hb hlt)
  rw [hcons] at hd ⊢
  rw [magnitudeOf?_of_unsigned (.inl hc), hd, Option.map_some,
    Decimal.toMagnitude_of_holds hb hlt (hvalue ▸ holds_shortest hb)]

theorem ofText?_layOut (negative : Bool) (layout : Layout) :
    ofText? (if negative then '-' :: (shortest b).layOut layout else (shortest b).layOut layout) =
      some (ofMagnitude negative b) := by
  have hmagnitude := magnitudeOf?_layOut hb hlt layout
  cases negative with
  | true =>
    show (magnitudeOf? ((shortest b).layOut layout)).map (ofMagnitude true) = _
    rw [hmagnitude, Option.map_some]
  | false =>
    obtain ⟨c, cs, hcons, hc⟩ := Decimal.exists_cons_layOut layout (digits_shortest_pos hb hlt)
    rw [hcons] at hmagnitude ⊢
    rw [if_neg Bool.false_ne_true, ofText?_of_unsigned (.inl hc), hmagnitude, Option.map_some]

end finite

variable {x y : Float}

/-- What is written for numbers that have no digits. -/
def Layout.names (layout : Layout) : List String :=
  [layout.zero, layout.notANumber, layout.infinite, layout.negativeInfinite]

/-- What the text of a number is. -/
theorem toText_cases (layout : Layout) (x : Float) :
    magnitude x = 0 ∧ toText layout x = layout.zero ∨
      x.isNaN = true ∧ toText layout x = layout.notANumber ∨
      magnitude x = infinityMagnitude ∧
        toText layout x = (if isNegative x then layout.negativeInfinite else layout.infinite) ∨
      (0 < magnitude x ∧ magnitude x < infinityMagnitude) ∧
        (toText layout x).toList = if isNegative x then '-' ::
          (shortest (magnitude x)).layOut layout
          else (shortest (magnitude x)).layOut layout := by
  rw [isNaN_iff]
  unfold toText
  dsimp only
  rcases Nat.eq_zero_or_pos (magnitude x) with hzero | hpos
  · exact .inl ⟨hzero, if_pos hzero⟩
  · rw [if_neg hpos.ne']
    rcases Nat.lt_trichotomy (magnitude x) infinityMagnitude with hlt | heq | hgt
    · rw [if_neg (Nat.lt_asymm hlt), if_neg hlt.ne]
      exact .inr (.inr (.inr ⟨⟨hpos, hlt⟩, String.toList_ofList⟩))
    · rw [if_neg (heq ▸ Nat.lt_irrefl _), if_pos heq]
      exact .inr (.inr (.inl ⟨heq, rfl⟩))
    · rw [if_pos hgt]
      exact .inr (.inl ⟨hgt, rfl⟩)

/-- A number, except that a zero is without its sign. -/
def unsignedZero (x : Float) : Float :=
  if x == 0 then 0 else x

theorem unsignedZero_of_ne (h : magnitude x ≠ 0) : unsignedZero x = x :=
  if_neg fun hzero => h (magnitude_eq_zero_iff.mpr hzero)

theorem unsignedZero_of_eq (h : magnitude x = 0) : unsignedZero x = 0 :=
  if_pos (magnitude_eq_zero_iff.mp h)

/-- A number is read from its text. -/
theorem ofText?_toText (x : Float) : ofText? (toText .basic x).toList = some (unsignedZero x) := by
  have hself := ofMagnitude_magnitude x
  rcases toText_cases .basic x with
    ⟨hzero, htext⟩ | ⟨hnan, htext⟩ | ⟨htop, htext⟩ | ⟨⟨hpos, hlt⟩, htext⟩
  · rw [htext, unsignedZero_of_eq hzero]
    decide +kernel
  · have hread : ofText? Layout.basic.notANumber.toList =
        some (ofMagnitude false (infinityMagnitude + leadingBit / 2)) := by decide +kernel
    have hisNaN : (ofMagnitude false (infinityMagnitude + leadingBit / 2)).isNaN = true := by
      decide +kernel
    have hpos : 0 < magnitude x := Nat.zero_lt_of_lt (isNaN_iff.mp hnan)
    rw [htext, hread, unsignedZero_of_ne hpos.ne', eq_of_isNaN hisNaN hnan]
  · rw [htext, unsignedZero_of_ne (htop.trans_ne (by decide)), ← hself, htop]
    cases isNegative x <;> decide +kernel
  · rw [htext, ofText?_layOut hpos hlt, unsignedZero_of_ne hpos.ne', hself]

theorem isBlank_of_mem_toText {c : Char} (h : c ∈ (toText .basic x).toList) :
    Text.isBlank c = false := by
  have hnames : ∀ name ∈ Layout.basic.names, (name.toList.all fun c => !Text.isBlank c) = true := by
    decide
  have hnamed : ∀ name, toText .basic x = name → name ∈ Layout.basic.names →
      Text.isBlank c = false := by
    rintro name rfl hname
    simpa using List.all_eq_true.mp (hnames _ hname) c h
  rcases toText_cases .basic x with ⟨-, htext⟩ | ⟨-, htext⟩ | ⟨-, htext⟩ | ⟨⟨hpos, hlt⟩, htext⟩
  · exact hnamed _ htext (by simp [Layout.names])
  · exact hnamed _ htext (by simp [Layout.names])
  · exact hnamed _ htext (by split <;> simp [Layout.names])
  · rw [htext] at h
    have hdigits := digits_shortest_pos hpos hlt
    split at h
    · rcases List.mem_cons.mp h with rfl | hmem
      · decide
      · exact Decimal.isBlank_of_mem_layOut hdigits hmem
    · exact Decimal.isBlank_of_mem_layOut hdigits h

/-- Numbers that are equal to each other are the same but for the sign of a zero. -/
theorem unsignedZero_eq_iff :
    unsignedZero x = unsignedZero y ↔ (x == y) = true ∨ x.isNaN = true ∧ y.isNaN = true := by
  constructor
  · intro h
    by_cases hx : magnitude x = 0 <;> by_cases hy : magnitude y = 0
    · exact .inl (beq_iff.mpr (.inr ⟨hx, hy⟩))
    · rw [unsignedZero_of_eq hx, unsignedZero_of_ne hy] at h
      exact absurd (h ▸ magnitude_zero) hy
    · rw [unsignedZero_of_ne hx, unsignedZero_of_eq hy] at h
      exact absurd (h ▸ magnitude_zero) hx
    · obtain rfl : x = y := by rwa [unsignedZero_of_ne hx, unsignedZero_of_ne hy] at h
      cases hnan : x.isNaN with
      | true => exact .inr ⟨rfl, rfl⟩
      | false => exact .inl (beq_iff.mpr (.inl ⟨rfl, hnan⟩))
  · rintro (hequal | ⟨hx, hy⟩)
    · rcases beq_iff.mp hequal with ⟨rfl, -⟩ | ⟨hx, hy⟩
      · rfl
      · rw [unsignedZero_of_eq hx, unsignedZero_of_eq hy]
    · rw [eq_of_isNaN hx hy]

theorem unsignedZero_unsignedZero (x : Float) : unsignedZero (unsignedZero x) = unsignedZero x := by
  by_cases hzero : magnitude x = 0
  · rw [unsignedZero_of_eq hzero, unsignedZero_of_eq magnitude_zero]
  · rw [unsignedZero_of_ne hzero, unsignedZero_of_ne hzero]

theorem toText_unsignedZero (layout : Layout) (x : Float) :
    toText layout (unsignedZero x) = toText layout x := by
  by_cases hzero : magnitude x = 0
  · rw [unsignedZero_of_eq hzero, toText, toText, if_pos hzero, if_pos magnitude_zero]
  · rw [unsignedZero_of_ne hzero]

theorem toText_eq_iff : toText .basic x = toText .basic y ↔ unsignedZero x = unsignedZero y := by
  constructor
  · intro h
    have hread := ofText?_toText x
    rw [h, ofText?_toText y] at hread
    exact (Option.some.inj hread).symm
  · intro h
    rw [← toText_unsignedZero, h, toText_unsignedZero]

end Number

/-- A text that was made from a number is read without fail. -/
theorem Value.toNumber_toText (x : Float) :
    (Value.text (Value.number x).toText).toNumber = .ok (Number.unsignedZero x) := by
  have hread : Number.ofText? (Text.trim (Value.number x).toText.toList) =
      some (Number.unsignedZero x) := by
    rw [toText, Text.trim_of_not_isBlank fun _ => Number.isBlank_of_mem_toText]
    exact Number.ofText?_toText x
  rw [toNumber, hread]

theorem Expr.evaluate_call_singleton {store : Store} {f : Ident} {b : Builtin} {e : Expr}
    {v : Value} {g g' : Generator} (hf : Builtin.ofName? f.name = some b)
    (he : evaluate store e g = (.ok v, g')) : evaluate store (.call f [e]) g = b.call [v] g' := by
  rw [evaluate_call_of_some store hf, evaluateAll_cons, he]
  rfl

/-- Every number comes back from its text, a zero without its sign, and so does the value of an
expression from `STR$` by `VAL`. What comes back is equal to the number, or neither is a number. So
two numbers are printed alike if and only if they are equal to each other, or neither is a
number. -/
theorem number_text_roundTrip (x : Float) :
    (Value.text (Value.number x).toText).toNumber = .ok (Number.unsignedZero x) ∧
      (∀ store e g g', Expr.evaluate store e g = (.ok (.number x), g') →
        Expr.evaluate store (.call ⟨"VAL"⟩ [.call ⟨"STR$"⟩ [e]]) g =
          (.ok (.number (Number.unsignedZero x)), g')) ∧
      ((Number.unsignedZero x == x) = true ∨ (Number.unsignedZero x).isNaN = true ∧
        x.isNaN = true) ∧
      ∀ y, (Value.number x).toText = (Value.number y).toText ↔
        (x == y) = true ∨ x.isNaN = true ∧ y.isNaN = true := by
  refine ⟨Value.toNumber_toText x, ?_, ?_, ?_⟩
  · intro store e g g' he
    have hstr := Expr.evaluate_call_singleton (f := ⟨"STR$"⟩) (b := .str) (by decide +kernel) he
    have hval := Expr.evaluate_call_singleton (f := ⟨"VAL"⟩) (b := .val) (by decide +kernel) hstr
    rw [hval]
    show (((Value.text (Value.number x).toText).toNumber.map Value.number), g') = _
    rw [Value.toNumber_toText]
    rfl
  · exact Number.unsignedZero_eq_iff.mp (Number.unsignedZero_unsignedZero x)
  · intro y
    exact Number.toText_eq_iff.trans Number.unsignedZero_eq_iff

end LineBasic
