import Mathlib.Data.List.TakeWhile
import LineBasic.Console.Terminal
import LineBasic.Console.Transcript
import LineBasic.Proofs.Run.Consoles

/-!
# Terminals and transcripts

A terminal whose input has all come answers like a transcript (`Terminal.answerAlike_mirrors`): one
with the lines that the input is cut into, and with traces that are the lines on the stream for
errors (`Terminal.Mirrors`). The input is bytes, and the byte that ends a line is part of no other
character, so the bytes of a text are cut where the text is.
-/

namespace LineBasic

namespace Text

/-- The bytes of characters. -/
def encode (cs : List Char) : List UInt8 :=
  cs.flatMap String.utf8EncodeChar

theorem encode_cons (c : Char) (cs : List Char) :
    encode (c :: cs) = String.utf8EncodeChar c ++ encode cs :=
  List.flatMap_cons

theorem encode_cons_ne_nil (c : Char) (cs : List Char) : encode (c :: cs) ≠ [] := by
  rw [encode_cons]
  exact List.append_ne_nil_of_left_ne_nil String.utf8EncodeChar_ne_nil _

theorem bytes_eq_encode (s : String) : bytes s = encode s.toList := by
  obtain ⟨cs, rfl⟩ : ∃ cs, s = String.ofList cs := ⟨s.toList, String.ofList_toList.symm⟩
  rw [bytes, String.toByteArray_ofList, String.toList_ofList]
  simp [List.utf8Encode, encode]

/-- The bytes that can be read are those of texts. -/
theorem decode?_eq_some_iff {b : List UInt8} {s : String} : decode? b = some s ↔ b = bytes s := by
  unfold decode? String.fromUTF8? bytes
  constructor
  · intro h
    split at h
    · obtain rfl := Option.some.inj h
      simp [String.fromUTF8]
    · cases h
  · rintro rfl
    have hbytes : (⟨s.toByteArray.data.toList.toArray⟩ : ByteArray) = s.toByteArray := by simp
    rw [dif_pos (hbytes ▸ s.isValidUTF8)]
    simp [String.fromUTF8]

theorem decode?_encode (cs : List Char) : decode? (encode cs) = some (String.ofList cs) := by
  rw [decode?_eq_some_iff, bytes_eq_encode, String.toList_ofList]

theorem lineFeed_ne_ofNat {n : Nat} (hlow : 128 ≤ n) (hhigh : n < 256) :
    Terminal.lineFeed ≠ UInt8.ofNat n := by
  intro h
  have hnat := congrArg UInt8.toNat h
  rw [UInt8.toNat_ofNat', Nat.mod_eq_of_lt hhigh] at hnat
  rw [← hnat] at hlow
  exact absurd hlow (by decide)

/-- The byte that ends a line is part of no character but one. -/
theorem lineFeed_not_mem_utf8EncodeChar {c : Char} (hc : c ≠ '\n') :
    Terminal.lineFeed ∉ String.utf8EncodeChar c := by
  intro h
  unfold String.utf8EncodeChar at h
  dsimp only at h
  split at h
  · rename_i hascii
    have hbyte := congrArg UInt8.toNat (List.mem_singleton.mp h)
    rw [UInt8.toNat_ofNat', Nat.mod_eq_of_lt (by omega)] at hbyte
    exact hc (Char.ext (UInt32.toNat_inj.mp hbyte.symm))
  -- All bytes of longer sequences are above the ASCII range.
  · split at h
    · simp only [List.mem_cons, List.not_mem_nil, or_false] at h
      rcases h with h | h
      all_goals exact lineFeed_ne_ofNat (by omega) (by omega) h
    · split at h
      · simp only [List.mem_cons, List.not_mem_nil, or_false] at h
        rcases h with h | h | h
        all_goals exact lineFeed_ne_ofNat (by omega) (by omega) h
      · simp only [List.mem_cons, List.not_mem_nil, or_false] at h
        rcases h with h | h | h | h
        all_goals exact lineFeed_ne_ofNat (by omega) (by omega) h

/-- A text cut behind each line feed. What follows the last one is a piece too, if there is
anything. -/
def cut : List Char → List (List Char)
  | [] => []
  | c :: cs =>
    if c = '\n' then [c] :: cut cs
    else match cut cs with
      | [] => [[c]]
      | piece :: pieces => (c :: piece) :: pieces

/-- The lines that an input gives to read. -/
def inputLines (input : String) : List String :=
  (cut input.toList).map fun piece => Terminal.dropLineEnds (String.ofList piece)

end Text

/-- The traces of a transcript as a text, one on each line. -/
def Transcript.traceText (t : Transcript) : String :=
  t.traces.foldl (fun text line => text ++ line ++ "\n") ""

namespace Terminal

open Text

theorem splitLine_append {line : List UInt8} (h : lineFeed ∉ line) (bytes : List UInt8) :
    splitLine (line ++ bytes) = (line ++ (splitLine bytes).1, (splitLine bytes).2) := by
  have hline : ∀ b ∈ line, (b != lineFeed) = true := by
    intro b hb
    rw [bne_iff_ne]
    rintro rfl
    exact h hb
  unfold splitLine
  rw [List.takeWhile_append_of_pos hline, List.dropWhile_append_of_pos hline]
  dsimp only
  split
  · rw [List.append_assoc]
  · rfl

/-- The first line of the bytes of a text is the first piece of the text. -/
theorem exists_splitLine_encode (c : Char) (cs : List Char) :
    ∃ piece rest, cut (c :: cs) = piece :: cut rest ∧
      splitLine (encode (c :: cs)) = (encode piece, encode rest) := by
  by_cases hc : c = '\n'
  · subst hc
    exact ⟨['\n'], cs, rfl, rfl⟩
  · have hsplit := splitLine_append (lineFeed_not_mem_utf8EncodeChar hc) (encode cs)
    rw [← encode_cons] at hsplit
    rw [hsplit, cut, if_neg hc]
    cases cs with
    | nil => exact ⟨[c], [], rfl, rfl⟩
    | cons d ds =>
      obtain ⟨piece, rest, hcut, hfirst⟩ := exists_splitLine_encode d ds
      rw [hcut, hfirst]
      exact ⟨c :: piece, rest, rfl, by rw [encode_cons]⟩

/-- A terminal and a transcript that the same was written to, and that have the same left to
read. -/
structure Mirrors (t : Terminal) (u : Transcript) : Prop where
  closed : t.closed = true
  exists_input : ∃ input, t.input = bytes input ∧ u.input = inputLines input
  output : t.output = u.output
  errors : t.errors = u.traceText

theorem readLine_of_nil {t : Terminal} (hclosed : t.closed = true) (h : t.input = []) :
    t.readLine = ⟨.error .endOfInput, t, false⟩ := by
  simp [readLine, hclosed, h]

theorem readLine_of_splitLine {t : Terminal} {piece : List Char} {rest : List UInt8}
    (hclosed : t.closed = true) (hne : t.input ≠ [])
    (h : splitLine t.input = (encode piece, rest)) :
    t.readLine = ⟨.ok (dropLineEnds (String.ofList piece)), { t with input := rest }, false⟩ := by
  unfold readLine
  rw [if_neg (by simp [hclosed]), if_neg (by simpa using hne), h]
  dsimp only
  rw [decode?_encode]

theorem Mirrors.readLine {t : Terminal} {u : Transcript} (h : t.Mirrors u) :
    t.readLine.Alongside Mirrors (Console.readLine u) := by
  obtain ⟨input, hbytes, hlines⟩ := h.exists_input
  obtain ⟨lines, output, traces⟩ := u
  obtain rfl : lines = inputLines input := hlines
  rw [bytes_eq_encode] at hbytes
  cases hinput : input.toList with
  | nil =>
    have hnone : inputLines input = [] := by rw [inputLines, hinput, cut, List.map_nil]
    rw [readLine_of_nil h.closed (by rw [hbytes, hinput]; rfl)]
    rw [hnone] at h ⊢
    exact ⟨rfl, h, rfl⟩
  | cons c cs =>
    obtain ⟨piece, rest, hcut, hsplit⟩ := exists_splitLine_encode c cs
    rw [hinput] at hbytes
    have hlines : inputLines input =
        dropLineEnds (String.ofList piece) :: inputLines (String.ofList rest) := by
      rw [inputLines, inputLines, hinput, hcut, List.map_cons, String.toList_ofList]
    rw [readLine_of_splitLine h.closed (hbytes ▸ encode_cons_ne_nil c cs) (hbytes ▸ hsplit), hlines]
    refine ⟨rfl, ⟨h.closed, ⟨String.ofList rest, ?_, rfl⟩, h.output, h.errors⟩, rfl⟩
    rw [bytes_eq_encode, String.toList_ofList]

/-- A terminal whose input has all come answers like a transcript. -/
theorem answerAlike_mirrors : Console.AnswerAlike Mirrors where
  write h text := ⟨rfl, ⟨h.closed, h.exists_input, congrArg (· ++ text) h.output, h.errors⟩, rfl⟩
  writeLine h text :=
    ⟨rfl, ⟨h.closed, h.exists_input, congrArg (· ++ text ++ "\n") h.output, h.errors⟩, rfl⟩
  readLine h := h.readLine
  trace {t u} h text := by
    refine ⟨rfl, ⟨h.closed, h.exists_input, h.output, ?_⟩, rfl⟩
    show t.errors ++ text ++ "\n" = Transcript.traceText { u with traces := u.traces.push text }
    rw [h.errors, Transcript.traceText, Transcript.traceText, Array.foldl_push]

end Terminal

end LineBasic
