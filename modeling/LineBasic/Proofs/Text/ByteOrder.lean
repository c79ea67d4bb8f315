import LineBasic.Proofs.Text.Utf8
import Mathlib.Data.String.Basic
import Mathlib.Tactic.SplitIfs

/-!
# The order of texts and of their bytes

UTF-8 keeps the order of characters: the bytes of a smaller character are less than those of
another, whatever follows (`Text.compare_utf8EncodeChar_of_lt`). So texts are ordered as the numbers
of their characters are, and as their bytes are (`Text.compare_bytes`).
-/

namespace LineBasic.Text

/-! ## Bytes of characters -/

section bytes

variable {a b v w : Nat} {xs ys : List UInt8}

theorem compare_cons_of_lt (h : a < b) (hb : b < 256) :
    Ord.compare (UInt8.ofNat a :: xs) (UInt8.ofNat b :: ys) = .lt := by
  have hbyte : Ord.compare (UInt8.ofNat a) (UInt8.ofNat b) = .lt := by
    rwa [Std.compare_eq_lt, UInt8.lt_iff_toNat_lt, UInt8.toNat_ofNat_of_lt' (Nat.lt_trans h hb),
      UInt8.toNat_ofNat_of_lt' hb]
  rw [List.compare_cons_cons, hbyte, Ordering.lt_then]

theorem compare_cons_of_eq (h : a = b) :
    Ord.compare (UInt8.ofNat a :: xs) (UInt8.ofNat b :: ys) = Ord.compare xs ys := by
  rw [h, List.compare_cons_cons, Std.ReflOrd.compare_self, Ordering.eq_then]

/-- The last byte decides between characters that agree in all bits before it. -/
theorem compare_last (h : v < w) (heq : v / 64 = w / 64) :
    Ord.compare (UInt8.ofNat (v % 64 + 128) :: xs) (UInt8.ofNat (w % 64 + 128) :: ys) = .lt :=
  compare_cons_of_lt (by omega) (by omega)

theorem compare_lastTwo (h : v < w) (heq : v / 4096 = w / 4096) :
    Ord.compare (UInt8.ofNat (v / 64 % 64 + 128) :: UInt8.ofNat (v % 64 + 128) :: xs)
      (UInt8.ofNat (w / 64 % 64 + 128) :: UInt8.ofNat (w % 64 + 128) :: ys) = .lt := by
  by_cases hnext : v / 64 < w / 64
  · exact compare_cons_of_lt (by omega) (by omega)
  · rw [compare_cons_of_eq (by omega)]
    exact compare_last h (by omega)

theorem compare_lastThree (h : v < w) (heq : v / 262144 = w / 262144) :
    Ord.compare
      (UInt8.ofNat (v / 4096 % 64 + 128) :: UInt8.ofNat (v / 64 % 64 + 128) ::
        UInt8.ofNat (v % 64 + 128) :: xs)
      (UInt8.ofNat (w / 4096 % 64 + 128) :: UInt8.ofNat (w / 64 % 64 + 128) ::
        UInt8.ofNat (w % 64 + 128) :: ys) =
        .lt := by
  by_cases hnext : v / 4096 < w / 4096
  · exact compare_cons_of_lt (by omega) (by omega)
  · rw [compare_cons_of_eq (by omega)]
    exact compare_lastTwo h (by omega)

end bytes

theorem compare_utf8EncodeChar_of_lt {c d : Char} (h : c.toNat < d.toNat)
    (more more' : List UInt8) :
    Ord.compare (String.utf8EncodeChar c ++ more) (String.utf8EncodeChar d ++ more') = .lt := by
  have hd : d.toNat < 0xD800 ∨ 0xDFFF < d.toNat ∧ d.toNat < 0x110000 := d.valid
  have hv : ∀ c : Char, c.val.toNat = c.toNat := fun _ => rfl
  unfold String.utf8EncodeChar
  rw [hv, hv]
  generalize c.toNat = v, d.toNat = w at h hd
  dsimp only
  split_ifs <;> simp only [List.cons_append, List.nil_append]
  any_goals omega
  -- A character of more bytes begins with a greater one.
  any_goals apply compare_cons_of_lt <;> omega
  · by_cases hlead : v / 64 < w / 64
    · exact compare_cons_of_lt (by omega) (by omega)
    · rw [compare_cons_of_eq (by omega)]
      exact compare_last h (by omega)
  · by_cases hlead : v / 4096 < w / 4096
    · exact compare_cons_of_lt (by omega) (by omega)
    · rw [compare_cons_of_eq (by omega)]
      exact compare_lastTwo h (by omega)
  · by_cases hlead : v / 262144 < w / 262144
    · exact compare_cons_of_lt (by omega) (by omega)
    · rw [compare_cons_of_eq (by omega)]
      exact compare_lastThree h (by omega)

/-! ## Bytes of texts -/

theorem compare_append_left (front xs ys : List UInt8) :
    Ord.compare (front ++ xs) (front ++ ys) = Ord.compare xs ys := by
  induction front with
  | nil => rfl
  | cons b front ih =>
    rw [List.cons_append, List.cons_append, List.compare_cons_cons, Std.ReflOrd.compare_self,
      Ordering.eq_then, ih]

/-- The bytes of a character compare as its number does, and after it what follows. -/
theorem compare_utf8EncodeChar (c d : Char) (more more' : List UInt8) :
    Ord.compare (String.utf8EncodeChar c ++ more) (String.utf8EncodeChar d ++ more') =
      (Ord.compare c.toNat d.toNat).then (Ord.compare more more') := by
  rcases Nat.lt_trichotomy c.toNat d.toNat with h | h | h
  · rw [compare_utf8EncodeChar_of_lt h, Nat.compare_eq_lt.mpr h, Ordering.lt_then]
  · obtain rfl : c = d := Char.toNat_inj.mp h
    rw [compare_append_left, Std.ReflOrd.compare_self, Ordering.eq_then]
  · rw [Std.OrientedOrd.eq_swap, compare_utf8EncodeChar_of_lt h, Nat.compare_eq_gt.mpr h,
      Ordering.gt_then, Ordering.swap_lt]

theorem compare_flatMap_utf8EncodeChar (cs ds : List Char) :
    Ord.compare (cs.flatMap String.utf8EncodeChar) (ds.flatMap String.utf8EncodeChar) =
      Ord.compare (cs.map Char.toNat) (ds.map Char.toNat) := by
  induction cs generalizing ds with
  | nil =>
    cases ds with
    | nil => rfl
    | cons d ds =>
      obtain ⟨lead, tail, hbytes, -⟩ := sequence_utf8EncodeChar d
      rw [List.flatMap_cons, hbytes]
      rfl
  | cons c cs ih =>
    cases ds with
    | nil =>
      obtain ⟨lead, tail, hbytes, -⟩ := sequence_utf8EncodeChar c
      rw [List.flatMap_cons, hbytes]
      rfl
    | cons d ds =>
      rw [List.flatMap_cons, List.flatMap_cons, compare_utf8EncodeChar, ih, List.map_cons,
        List.map_cons, List.compare_cons_cons]

/-- The bytes of texts are ordered as the numbers of their characters. -/
theorem compare_bytes (s t : String) :
    Ord.compare (bytes s) (bytes t) =
      Ord.compare (s.toList.map Char.toNat) (t.toList.map Char.toNat) := by
  rw [← compare_flatMap_utf8EncodeChar, ← bytes_ofList, ← bytes_ofList, String.ofList_toList,
    String.ofList_toList]

theorem compare_map_toNat_eq_lt_iff (cs ds : List Char) :
    Ord.compare (cs.map Char.toNat) (ds.map Char.toNat) = .lt ↔ cs < ds := by
  induction cs generalizing ds with
  | nil => cases ds <;> simp
  | cons c cs ih =>
    cases ds with
    | nil => simp
    | cons d ds =>
      rw [List.map_cons, List.map_cons, List.compare_cons_cons, Ordering.then_eq_lt, ih,
        List.cons_lt_cons_iff, Nat.compare_eq_lt, Nat.compare_eq_eq, Char.toNat_inj]
      rfl

/-- Texts are ordered as the numbers of their characters. -/
theorem compare_eq_compare_map_toNat (s t : String) :
    Ord.compare s t = Ord.compare (s.toList.map Char.toNat) (t.toList.map Char.toNat) := by
  have hlt : ∀ {s t : String}, s < t →
      Ord.compare s t = .lt ∧ Ord.compare (s.toList.map Char.toNat) (t.toList.map Char.toNat) =
        .lt := by
    intro s t h
    rw [compare_map_toNat_eq_lt_iff, ← String.lt_iff_toList_lt, Std.LawfulLTCmp.eq_lt_iff_lt]
    exact ⟨h, h⟩
  rcases lt_trichotomy s t with h | rfl | h
  · rw [(hlt h).1, (hlt h).2]
  · rw [Std.ReflOrd.compare_self, Std.ReflOrd.compare_self]
  · rw [Std.OrientedCmp.gt_iff_lt.mpr (hlt h).1, Std.OrientedCmp.gt_iff_lt.mpr (hlt h).2]

end LineBasic.Text
