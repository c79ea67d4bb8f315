/-!
# Reading bytes as UTF-8

`decodeLossy` reads any bytes. A well-formed sequence gives its character; a longest run of bytes
that begins a well-formed sequence but does not complete one gives a single replacement character,
and so does a byte that can begin none.
-/

namespace LineBasic.Text

/-- The character that stands for bytes that are no part of a well-formed sequence. -/
def replacement : Char := '�'

/-- Reads `count` continuation bytes onto the number read so far. The first of them must lie between
`low` and `high`; all later ones may be any continuation byte. Also gives the bytes left, from the
first byte that does not fit. -/
def continuation : (count : Nat) → (low high : UInt8) → (code : Nat) → List UInt8 →
    Option Nat × List UInt8
  | 0, _, _, code, bytes => (some code, bytes)
  | _ + 1, _, _, _, [] => (none, [])
  | count + 1, low, high, code, b :: bytes =>
    if low ≤ b ∧ b ≤ high then continuation count 0x80 0xBF (code * 64 + b.toNat % 64) bytes
    else (none, b :: bytes)

/-- Reads the sequence that begins with the byte `lead`. The ranges leave out overlong forms,
surrogates, and numbers beyond the last character. -/
def sequence (lead : UInt8) (bytes : List UInt8) : Option Nat × List UInt8 :=
  if lead < 0x80 then (some lead.toNat, bytes)
  else if lead < 0xC2 then (none, bytes)
  else if lead < 0xE0 then continuation 1 0x80 0xBF (lead.toNat - 0xC0) bytes
  else if lead = 0xE0 then continuation 2 0xA0 0xBF 0 bytes
  else if lead = 0xED then continuation 2 0x80 0x9F 0xD bytes
  else if lead < 0xF0 then continuation 2 0x80 0xBF (lead.toNat - 0xE0) bytes
  else if lead = 0xF0 then continuation 3 0x90 0xBF 0 bytes
  else if lead < 0xF4 then continuation 3 0x80 0xBF (lead.toNat - 0xF0) bytes
  else if lead = 0xF4 then continuation 3 0x80 0x8F 4 bytes
  else (none, bytes)

theorem length_continuation_le (count : Nat) (low high : UInt8) (code : Nat) (bytes : List UInt8) :
    (continuation count low high code bytes).2.length ≤ bytes.length := by
  induction count, low, high, code, bytes using continuation.induct with
  | case1 => simp [continuation]
  | case2 => simp [continuation]
  | case3 code count low high b bytes h ih =>
    rw [continuation, if_pos h, List.length_cons]
    omega
  | case4 code count low high b bytes h => simp only [continuation, if_neg h, Nat.le_refl]

/-- A sequence takes no bytes back. -/
theorem length_sequence_le (lead : UInt8) (bytes : List UInt8) :
    (sequence lead bytes).2.length ≤ bytes.length := by
  unfold sequence
  repeat' split
  all_goals first
    | exact Nat.le_refl _
    | exact length_continuation_le ..

/-- The characters that bytes stand for, with a replacement character for each ill-formed part. -/
def decodeLossy : List UInt8 → List Char
  | [] => []
  | lead :: bytes =>
    let step := sequence lead bytes
    (match step.1 with
      | some code => Char.ofNat code
      | none => replacement) :: decodeLossy step.2
termination_by bytes => bytes.length
decreasing_by
  have := length_sequence_le lead bytes
  simp only [List.length_cons]
  omega

/-- The bytes of a string. -/
def bytes (s : String) : List UInt8 :=
  s.toByteArray.data.toList

/-- The string that well-formed bytes stand for. -/
def decode? (bytes : List UInt8) : Option String :=
  String.fromUTF8? ⟨bytes.toArray⟩

end LineBasic.Text
