import LineBasic.Text.Utf8

/-!
# Reading the bytes of a text

The bytes of a character are read as the character, whatever follows them
(`Text.sequence_utf8EncodeChar`). So reading the bytes of a text gives the text
(`Text.decodeLossy_bytes`): replacement characters come only of bytes that are cut out of the midst
of a character.
-/

namespace LineBasic.Text

/-! ## Bytes -/

theorem length_bytes (s : String) : (bytes s).length = s.utf8ByteSize := by
  rw [bytes, ← String.size_toByteArray]
  rfl

theorem bytes_append (s t : String) : bytes (s ++ t) = bytes s ++ bytes t := by
  simp [bytes, String.toByteArray_append]

theorem bytes_ofList (cs : List Char) :
    bytes (String.ofList cs) = cs.flatMap String.utf8EncodeChar := by
  rw [bytes, String.toByteArray_ofList, List.utf8Encode, List.data_toByteArray]

/-! ## Reading one character -/

theorem continuation_cons {count code x : Nat} {low high : UInt8} (hlow : low.toNat ≤ x % 64 + 128)
    (hhigh : x % 64 + 128 ≤ high.toNat) (more : List UInt8) :
    continuation (count + 1) low high code (UInt8.ofNat (x % 64 + 128) :: more) =
      continuation count 0x80 0xBF (code * 64 + x % 64) more := by
  have hbyte : (UInt8.ofNat (x % 64 + 128)).toNat = x % 64 + 128 :=
    UInt8.toNat_ofNat_of_lt' (show x % 64 + 128 < 256 by omega)
  have hcode : (x % 64 + 128) % 64 = x % 64 := by omega
  rw [continuation, if_pos, hbyte, hcode]
  rw [UInt8.le_iff_toNat_le, UInt8.le_iff_toNat_le, hbyte]
  exact ⟨hlow, hhigh⟩

/-- The reading of a sequence by the number of its first byte. -/
theorem sequence_ofNat {a : Nat} (ha : a < 256) (more : List UInt8) :
    sequence (UInt8.ofNat a) more =
      if a < 0x80 then (some a, more)
      else if a < 0xC2 then (none, more)
      else if a < 0xE0 then continuation 1 0x80 0xBF (a - 0xC0) more
      else if a = 0xE0 then continuation 2 0xA0 0xBF 0 more
      else if a = 0xED then continuation 2 0x80 0x9F 0xD more
      else if a < 0xF0 then continuation 2 0x80 0xBF (a - 0xE0) more
      else if a = 0xF0 then continuation 3 0x90 0xBF 0 more
      else if a < 0xF4 then continuation 3 0x80 0xBF (a - 0xF0) more
      else if a = 0xF4 then continuation 3 0x80 0x8F 4 more
      else (none, more) := by
  have hbyte : (UInt8.ofNat a).toNat = a := UInt8.toNat_ofNat_of_lt' ha
  simp only [sequence, UInt8.lt_iff_toNat_lt, ← UInt8.toNat_inj, hbyte]
  rfl

/-- A character of two bytes. -/
theorem sequence_two {v : Nat} (hlow : 127 < v) (hhigh : v ≤ 2047) (more : List UInt8) :
    sequence (UInt8.ofNat (v / 64 % 32 + 192)) (UInt8.ofNat (v % 64 + 128) :: more) =
      (some v, more) := by
  have hcode : (v / 64 % 32 + 192 - 192) * 64 + v % 64 = v := by omega
  rw [sequence_ofNat (by omega), if_neg (by omega), if_neg (by omega), if_pos (by omega),
    continuation_cons (show 128 ≤ _ by omega) (show _ ≤ 191 by omega), hcode, continuation]

/-- A character of three bytes. The numbers `0xD800` to `0xDFFF` are no characters. -/
theorem sequence_three {v : Nat} (hlow : 2047 < v) (hhigh : v ≤ 65535)
    (hvalid : v < 0xD800 ∨ 0xDFFF < v) (more : List UInt8) :
    sequence (UInt8.ofNat (v / 4096 % 16 + 224))
      (UInt8.ofNat (v / 64 % 64 + 128) :: UInt8.ofNat (v % 64 + 128) :: more) = (some v, more) := by
  have hlast : ∀ code, code * 64 + v % 64 = v →
      continuation 1 0x80 0xBF code (UInt8.ofNat (v % 64 + 128) :: more) = (some v, more) := by
    intro code hcode
    rw [continuation_cons (show 128 ≤ _ by omega) (show _ ≤ 191 by omega), hcode, continuation]
  rw [sequence_ofNat (by omega), if_neg (by omega), if_neg (by omega), if_neg (by omega)]
  split
  · rw [continuation_cons (show 160 ≤ _ by omega) (show _ ≤ 191 by omega), hlast _ (by omega)]
  · split
    · rw [continuation_cons (show 128 ≤ _ by omega) (show _ ≤ 159 by omega), hlast _ (by omega)]
    · rw [if_pos (by omega), continuation_cons (show 128 ≤ _ by omega) (show _ ≤ 191 by omega),
        hlast _ (by omega)]

/-- A character of four bytes. -/
theorem sequence_four {v : Nat} (hlow : 65535 < v) (hhigh : v < 0x110000) (more : List UInt8) :
    sequence (UInt8.ofNat (v / 262144 % 8 + 240))
      (UInt8.ofNat (v / 4096 % 64 + 128) :: UInt8.ofNat (v / 64 % 64 + 128) ::
        UInt8.ofNat (v % 64 + 128) :: more) =
        (some v, more) := by
  have hlast : ∀ code, (code * 64 + v / 64 % 64) * 64 + v % 64 = v →
      continuation 2 0x80 0xBF code
        (UInt8.ofNat (v / 64 % 64 + 128) :: UInt8.ofNat (v % 64 + 128) :: more) =
        (some v, more) := by
    intro code hcode
    rw [continuation_cons (show 128 ≤ _ by omega) (show _ ≤ 191 by omega),
      continuation_cons (show 128 ≤ _ by omega) (show _ ≤ 191 by omega), hcode, continuation]
  rw [sequence_ofNat (by omega), if_neg (by omega), if_neg (by omega), if_neg (by omega),
    if_neg (by omega), if_neg (by omega), if_neg (by omega)]
  split
  · rw [continuation_cons (show 144 ≤ _ by omega) (show _ ≤ 191 by omega), hlast _ (by omega)]
  · split
    · rw [continuation_cons (show 128 ≤ _ by omega) (show _ ≤ 191 by omega), hlast _ (by omega)]
    · rw [if_pos (by omega), continuation_cons (show 128 ≤ _ by omega) (show _ ≤ 143 by omega),
        hlast _ (by omega)]

/-- The bytes of a character are read as the character. -/
theorem sequence_utf8EncodeChar (c : Char) :
    ∃ lead tail, String.utf8EncodeChar c = lead :: tail ∧
      ∀ more, sequence lead (tail ++ more) = (some c.toNat, more) := by
  have hvalid : c.toNat < 0xD800 ∨ 0xDFFF < c.toNat ∧ c.toNat < 0x110000 := c.valid
  have hv : c.val.toNat = c.toNat := rfl
  unfold String.utf8EncodeChar
  rw [hv]
  dsimp only
  split
  · refine ⟨_, _, rfl, fun more => ?_⟩
    rw [sequence_ofNat (by omega), if_pos (by omega)]
    rfl
  · split
    · exact ⟨_, _, rfl, fun more => sequence_two (by omega) (by omega) more⟩
    · split
      · exact ⟨_, _, rfl, fun more => sequence_three (by omega) (by omega) (by omega) more⟩
      · exact ⟨_, _, rfl, fun more => sequence_four (by omega) (by omega) more⟩

/-! ## Reading a text -/

theorem decodeLossy_append (c : Char) (more : List UInt8) :
    decodeLossy (String.utf8EncodeChar c ++ more) = c :: decodeLossy more := by
  obtain ⟨lead, tail, hbytes, hsequence⟩ := sequence_utf8EncodeChar c
  rw [hbytes, List.cons_append, decodeLossy, hsequence]
  dsimp only
  rw [Char.ofNat_toNat]

theorem decodeLossy_flatMap (cs : List Char) :
    decodeLossy (cs.flatMap String.utf8EncodeChar) = cs := by
  induction cs with
  | nil => rw [List.flatMap_nil, decodeLossy]
  | cons c cs ih => rw [List.flatMap_cons, decodeLossy_append, ih]

/-- The bytes of a text are read as the text. -/
theorem decodeLossy_bytes (s : String) : String.ofList (decodeLossy (bytes s)) = s := by
  obtain ⟨cs, rfl⟩ : ∃ cs, s = String.ofList cs := ⟨s.toList, String.ofList_toList.symm⟩
  rw [bytes_ofList, decodeLossy_flatMap]

end LineBasic.Text
