import LineBasic.Environment.Call
import LineBasic.Proofs.Number.Counting
import LineBasic.Proofs.Text.Utf8

/-!
# Parts of texts

`MID$` takes the bytes of a text from a start on, as many as a length says. Start and length are any
two numbers, of which only the whole parts count, and these may be infinite. The bounds that come of
them are always those of a slice of the text (`Builtin.exists_middle?`). A text that is cut in two
between characters is the sum of its parts (`Builtin.mid_takes_and_splits`).
-/

namespace LineBasic.Builtin

open Number Text

/-- What `MID$` takes of a text, by the whole parts of its start and its length. -/
inductive IsMiddle (s : String) (a b : Float) : String → Prop
  | notANumber (h : a.isNaN = true ∨ b.isNaN = true) : IsMiddle s a b ""
  | outside {i n : EInt} (ha : wholePart? a = some i) (hb : wholePart? b = some n)
      (h : i < 1 ∨ n ≤ 0 ∨ s.utf8ByteSize < i) : IsMiddle s a b ""
  | inside {first last : Nat} {n : EInt} (ha : wholePart? a = some (first + 1))
      (hb : wholePart? b = some n) (hn : 0 < n)
      (hlast : (last : EInt) = min (first + n) s.utf8ByteSize) (hlt : first < last)
      (hle : last ≤ s.utf8ByteSize) :
      IsMiddle s a b (String.ofList (decodeLossy ((bytes s).extract first last)))

variable {s : String} {a b : Float}

theorem middle?_eq_empty (h : ((truncate a).isNaN = true ∨ (truncate b).isNaN = true) ∨
    truncate a < 1 ∨ truncate b ≤ 0 ∨ Number.ofNat s.utf8ByteSize < truncate a) :
    middle? s a b = some "" := by
  rw [middle?]
  split
  · rfl
  · exact if_pos (h.resolve_left ‹_›)

/-- What is not a number takes nothing. -/
theorem middle?_of_none (h : toInt? a = none ∨ toInt? b = none) : middle? s a b = some "" := by
  have hnan : ∀ {x : Float}, toInt? x = none → (truncate x).isNaN = true := by
    intro x hx
    rcases truncate_cases x with ⟨-, hnan⟩ | ⟨p, -, ⟨hsome, -⟩ | ⟨hsome, -⟩⟩
    · exact hnan
    · cases hx.symm.trans hsome
    · cases hx.symm.trans hsome
  exact middle?_eq_empty (.inl (h.imp hnan hnan))

/-- Where start and length are whole numbers, which may be rounded, the bytes are the ones that
these count. -/
theorem middle?_of_whole (hs : s.utf8ByteSize < 2 ^ 53) {i p : Nat} (hp : p ≤ infinityMagnitude)
    (ha : truncate a = Number.ofNat i)
    (hb : truncate b = Number.ofNat (Dyadic.ofMagnitude p).whole) :
    middle? s a b = if i < 1 ∨ (Dyadic.ofMagnitude p).whole ≤ 0 ∨ s.utf8ByteSize < i then some ""
      else slice? s (i - 1) (min (i - 1 + (Dyadic.ofMagnitude p).whole) s.utf8ByteSize) := by
  have hone : truncate a < 1 ↔ i < 1 := by rw [ha, ← ofNat_one, ofNat_lt_iff (.inr (by decide))]
  have hpos : truncate b ≤ 0 ↔ (Dyadic.ofMagnitude p).whole ≤ 0 := by
    rw [hb, ← ofNat_zero, ofNat_le_iff (.inr (by decide))]
  have hsize : Number.ofNat s.utf8ByteSize < truncate a ↔ s.utf8ByteSize < i := by
    rw [ha, ofNat_lt_iff (.inl hs)]
  have hnumber : ¬ ((truncate a).isNaN = true ∨ (truncate b).isNaN = true) := by
    rw [ha, hb, isNaN_ofNat, isNaN_ofNat]
    decide
  rw [middle?]
  simp only [hone, hpos, hsize]
  rw [if_neg hnumber, ha, hb]
  split
  · rfl
  · rename_i hin
    simp only [not_or, not_lt, not_le] at hin
    rw [toNat_toUInt64_ofNat (by omega), ofNat_add_whole (by omega) hp, min_ofNat (.inr hs),
      toNat_toUInt64_ofNat (by omega)]

/-- Numbers count bytes as their whole parts do. -/
theorem middle?_of_some (hs : s.utf8ByteSize < 2 ^ 53) {i n : ℤ} (ha : toInt? a = some i)
    (hb : toInt? b = some n) :
    middle? s a b = if i < 1 ∨ n ≤ 0 ∨ (s.utf8ByteSize : ℤ) < i then some ""
      else slice? s (i - 1).toNat (min (i - 1 + n) s.utf8ByteSize).toNat := by
  rcases truncate_cases a with ⟨hnone, -⟩ | ⟨p, -, ⟨hi, hstart⟩ | ⟨hi, -, hlt⟩⟩
  · cases ha.symm.trans hnone
  · obtain rfl : i = _ := Option.some_inj.mp (ha.symm.trans hi)
    rcases truncate_cases b with ⟨hnone, -⟩ | ⟨q, hq, ⟨hn, hlength⟩ | ⟨hn, hle, -⟩⟩
    · cases hb.symm.trans hnone
    · obtain rfl : n = _ := Option.some_inj.mp (hb.symm.trans hn)
      rw [middle?_of_whole hs hq hstart hlength]
      split
      · rw [if_pos (by omega)]
      · rw [if_neg (by omega)]
        congr 1
        · omega
        · omega
    · obtain rfl : n = _ := Option.some_inj.mp (hb.symm.trans hn)
      rw [if_pos (.inr (.inl (by omega)))]
      exact middle?_eq_empty (.inr (.inr (.inl hle)))
  · obtain rfl : i = _ := Option.some_inj.mp (ha.symm.trans hi)
    rw [if_pos (.inl (by omega))]
    exact middle?_eq_empty (.inr (.inl hlt))

theorem slice?_of_le {first last : Nat} (h : first ≤ last) (hlast : last ≤ s.utf8ByteSize) :
    slice? s first last = some (String.ofList (decodeLossy ((bytes s).extract first last))) :=
  if_pos ⟨h, hlast⟩

/-- What is taken of a text lies in it: the slice is there for any two numbers. -/
theorem exists_middle? (hs : s.utf8ByteSize < 2 ^ 53) (a b : Float) :
    ∃ part, middle? s a b = some part ∧ IsMiddle s a b part := by
  have hbeyond : (2 : ℤ) ^ 53 < beyond := by decide +kernel
  rcases toInt?_cases a with ⟨hnan, -, ha⟩ | ⟨i', i, hwholea, ha, hi⟩
  · exact ⟨"", middle?_of_none (.inl ha), .notANumber (.inl hnan)⟩
  · rcases toInt?_cases b with ⟨hnan, -, hb⟩ | ⟨n', n, hwholeb, hb, hn⟩
    · exact ⟨"", middle?_of_none (.inr hb), .notANumber (.inr hnan)⟩
    · rw [middle?_of_some hs ha hb]
      split
      · rename_i hout
        refine ⟨"", rfl, .outside hwholea hwholeb (hout.imp ?_ (Or.imp ?_ ?_))⟩
        · exact (hi.lt_iff (m := 1) (by omega) (by omega)).mpr
        · intro hle
          exact not_lt.mp fun hlt =>
            not_lt.mpr hle ((hn.gt_iff (m := 0) (by omega) (by omega)).mp hlt)
        · exact (hi.gt_iff (by omega) (by omega)).mpr
      · rename_i hin
        simp only [not_or, not_lt, not_le] at hin
        obtain ⟨hone, hpos, hle⟩ := hin
        obtain ⟨first, rfl⟩ : ∃ first : Nat, i = first + 1 := ⟨(i - 1).toNat, by omega⟩
        obtain rfl := hi.eq_coe (by omega) (by omega)
        have hlast :=
          hn.min_add hpos (m := first) (by omega) (show (s.utf8ByteSize : ℤ) < beyond by omega)
        rw [Int.add_sub_cancel, Int.toNat_natCast]
        obtain ⟨last, hmin⟩ : ∃ last : Nat, min ((first : ℤ) + n) s.utf8ByteSize = last :=
          ⟨(min ((first : ℤ) + n) s.utf8ByteSize).toNat, by omega⟩
        rw [hmin] at hlast ⊢
        have hlt : first < last := by omega
        have hsize : last ≤ s.utf8ByteSize := by omega
        have hlength := (hn.gt_iff (m := 0) (by omega) (by omega)).mpr hpos
        exact ⟨_, slice?_of_le hlt.le hsize, .inside hwholea hwholeb hlength hlast hlt hsize⟩

/-- A text is cut where its first part ends. -/
theorem slice?_append (front back : String) :
    slice? (front ++ back) 0 front.utf8ByteSize = some front ∧
      slice? (front ++ back) front.utf8ByteSize (front ++ back).utf8ByteSize = some back := by
  have hsize : (front ++ back).utf8ByteSize = front.utf8ByteSize + back.utf8ByteSize :=
    String.utf8ByteSize_append
  constructor
  · rw [slice?_of_le (Nat.zero_le _) (by omega), List.extract_eq_take_drop, bytes_append,
      List.drop_zero, Nat.sub_zero, ← length_bytes, List.take_left, decodeLossy_bytes]
  · rw [slice?_of_le (by omega) (Nat.le_refl _), List.extract_eq_take_drop, bytes_append, hsize,
      ← length_bytes, List.drop_left, Nat.add_sub_cancel_left, ← length_bytes, List.take_length,
      decodeLossy_bytes]

/-- Between characters a text is cut into its two parts. -/
theorem middle?_append {front back : String} (hs : (front ++ back).utf8ByteSize < 2 ^ 53) :
    middle? (front ++ back) 1 (Number.ofNat front.utf8ByteSize) = some front ∧
      middle? (front ++ back) (Number.ofNat (front.utf8ByteSize + 1))
        (Number.ofNat (front ++ back).utf8ByteSize) =
        some back := by
  have hsize : (front ++ back).utf8ByteSize = front.utf8ByteSize + back.utf8ByteSize :=
    String.utf8ByteSize_append
  have hone : toInt? 1 = some 1 := by decide +kernel
  have hk := toInt?_ofNat (show front.utf8ByteSize ≤ 2 ^ 53 by omega)
  have hnext := toInt?_ofNat (show front.utf8ByteSize + 1 ≤ 2 ^ 53 by omega)
  have hall := toInt?_ofNat hs.le
  obtain ⟨hfront, hback⟩ := slice?_append front back
  constructor
  · rw [middle?_of_some hs hone hk]
    split
    · exact congrArg some (String.utf8ByteSize_eq_zero_iff.mp (by omega)).symm
    · have hlast : (min (1 - 1 + (front.utf8ByteSize : ℤ)) (front ++ back).utf8ByteSize).toNat =
          front.utf8ByteSize := by
        omega
      rw [hlast]
      exact hfront
  · rw [middle?_of_some hs hnext hall]
    split
    · exact congrArg some (String.utf8ByteSize_eq_zero_iff.mp (by omega)).symm
    · have hfirst : (((front.utf8ByteSize + 1 : Nat) : ℤ) - 1).toNat = front.utf8ByteSize := by
        omega
      have hlast : (min (((front.utf8ByteSize + 1 : Nat) : ℤ) - 1 + (front ++ back).utf8ByteSize)
          (front ++ back).utf8ByteSize).toNat = (front ++ back).utf8ByteSize := by
        omega
      rw [hfirst, hlast]
      exact hback

theorem mid_call_of_some {part : String} (h : middle? s a b = some part) (g : Generator) :
    mid.call [.text s, .number a, .number b] g = (.ok (.text part), g) :=
  congrArg (fun part? => (Except.ok (Value.text (part?.getD "")), g)) h

/-- `MID$` gives a part of the text for any two numbers, and the slice that it takes lies in the
text. Where a text is cut between characters, the two parts have the lengths that were asked for and
make up the text. -/
theorem mid_takes_and_splits (hs : s.utf8ByteSize < 2 ^ 53) (g : Generator) :
    (∀ a b, ∃ part, middle? s a b = some part ∧
      mid.call [.text s, .number a, .number b] g = (.ok (.text part), g) ∧ IsMiddle s a b part) ∧
      ∀ k, String.Pos.Raw.IsValid s ⟨k⟩ → k ≤ s.utf8ByteSize ∧ ∃ front back,
        mid.call [.text s, .number 1, .number (Number.ofNat k)] g = (.ok (.text front), g) ∧
        mid.call [.text s, .number (Number.ofNat (k + 1)),
          .number (Number.ofNat s.utf8ByteSize)] g =
          (.ok (.text back), g) ∧
        (Value.text front).add (.text back) = .ok (.text s) ∧
        len.call [.text front] g = (.ok (.number (Number.ofNat k)), g) ∧
        len.call [.text back] g = (.ok (.number (Number.ofNat (s.utf8ByteSize - k))), g) := by
  constructor
  · intro a b
    obtain ⟨part, hpart, hmiddle⟩ := exists_middle? hs a b
    exact ⟨part, hpart, mid_call_of_some hpart g, hmiddle⟩
  · intro k hk
    obtain ⟨front, back, rfl, hend⟩ := String.Pos.Raw.isValid_iff_exists_append.mp hk
    obtain rfl : k = front.utf8ByteSize := congrArg String.Pos.Raw.byteIdx hend
    obtain ⟨hfront, hback⟩ := middle?_append hs
    have hsize : (front ++ back).utf8ByteSize = front.utf8ByteSize + back.utf8ByteSize :=
      String.utf8ByteSize_append
    have hrest : (front ++ back).utf8ByteSize - front.utf8ByteSize = back.utf8ByteSize := by omega
    refine ⟨by omega, front, back, mid_call_of_some hfront g, mid_call_of_some hback g,
      rfl, rfl, ?_⟩
    rw [hrest]
    rfl

/-- A text whose second character has two bytes, cut behind that character, and from its second byte
on. -/
theorem mid_takes_and_splits_accented :
    "dé!".utf8ByteSize < 2 ^ 53 ∧ String.Pos.Raw.IsValid "dé!" ⟨3⟩ ∧
      (∃ part, middle? "dé!" 3 (1 / 0) = some part ∧
        mid.call [.text "dé!", .number 3, .number (1 / 0)] (.ofSeed 0) =
          (.ok (.text part), .ofSeed 0) ∧
        IsMiddle "dé!" 3 (1 / 0) part) ∧
      ∃ front back, (Value.text front).add (.text back) = .ok (.text "dé!") ∧
        len.call [.text front] (.ofSeed 0) = (.ok (.number (Number.ofNat 3)), .ofSeed 0) ∧
        len.call [.text back] (.ofSeed 0) =
          (.ok (.number (Number.ofNat ("dé!".utf8ByteSize - 3))), .ofSeed 0) := by
  have hsize : "dé!".utf8ByteSize < 2 ^ 53 := by decide
  have hcut : String.Pos.Raw.IsValid "dé!" ⟨3⟩ :=
    String.Pos.Raw.isValid_iff_exists_append.mpr ⟨"dé", "!", by decide, by decide⟩
  obtain ⟨htakes, hsplits⟩ := mid_takes_and_splits hsize (.ofSeed 0)
  obtain ⟨-, front, back, -, -, hsum, hfront, hback⟩ := hsplits 3 hcut
  exact ⟨hsize, hcut, htakes 3 (1 / 0), front, back, hsum, hfront, hback⟩

end LineBasic.Builtin
