import LineBasic.Proofs.Listing.Load
import LineBasic.Proofs.Program.BreaksOff

/-!
# Listings that were entered line by line

`Listing.Built` are the listings that come of the empty one by entering and deleting lines and
loading texts. What such a listing has under a number is one line that begins with the digits of
that number (`Listing.Built.storesLines`). If none of its lines breaks off, the program that it
spells has exactly the lines of the listing, each with the statement that its text makes by itself
(`Listing.lineNumbers_program`). A line that breaks off can take up the line below it.
-/

namespace LineBasic

namespace Listing

/-- A listing that was made from the empty one: lines were entered and deleted, and texts were
loaded, whether that went well or not. -/
inductive Built : Listing → Prop
  | empty : Built .empty
  | entered {l l' : Listing} {line : String} (h : Built l) (hnewline : '\n' ∉ line.toList)
      (henter : l.enter line = .ok l') : Built l'
  | loaded {l : Listing} (source : String) (h : Built l) : Built (l.load source).2
  | removed {l : Listing} (n : Nat) (h : Built l) : Built (l.remove n)

/-- A text that can be stored under a number. -/
structure IsStored (n : Nat) (text : String) : Prop where
  newline : '\n' ∉ text.toList
  number : lineNumberOf? (String.ofList (text.toList.takeWhile Char.isDigit)) = some n

variable {l l' : Listing} {line : String}

/-- What entering a line does: nothing, or it deletes a line, or it stores the text under the number
in front, which has more than blanks behind it. -/
theorem enter_cases (h : l.enter line = .ok l') :
    l' = l ∨ (∃ n, l' = l.remove n) ∨
      ∃ n, lineNumberOf? (String.ofList ((Text.trimmed line).toList.takeWhile Char.isDigit)) =
        some n ∧
        (Text.trim ((Text.trimmed line).toList.dropWhile Char.isDigit) ≠ []) ∧
        l' = ⟨l.lines.put n (Text.trimmed line)⟩ := by
  rw [Text.trimmed, String.toList_ofList]
  unfold enter at h
  dsimp only at h
  split at h
  · exact .inl (Except.ok.inj h).symm
  · split at h
    · cases h
    · split at h
      · cases h
      · rename_i n hn
        split at h
        · exact .inr (.inl ⟨n, (Except.ok.inj h).symm⟩)
        · rename_i hrest
          exact .inr (.inr ⟨n, hn, by simpa using hrest, (Except.ok.inj h).symm⟩)

/-- All that a listing has under its numbers is of some form. -/
def Stores (P : Nat → String → Prop) (l : Listing) : Prop :=
  ∀ n text, l.get? n = some text → P n text

section stores

variable {P : Nat → String → Prop}

theorem Stores.remove (h : l.Stores P) (n : Nat) : (l.remove n).Stores P := by
  intro m text hm
  rw [Listing.get?, Listing.remove, Numbered.get?_erase] at hm
  split at hm
  · cases hm
  · exact h m text hm

variable (hP : ∀ (line : String) (n : Nat), '\n' ∉ line.toList →
  lineNumberOf? (String.ofList ((Text.trimmed line).toList.takeWhile Char.isDigit)) = some n →
  Text.trim ((Text.trimmed line).toList.dropWhile Char.isDigit) ≠ [] → P n (Text.trimmed line))
include hP

theorem Stores.enter (h : l.Stores P) (hnewline : '\n' ∉ line.toList)
    (henter : l.enter line = .ok l') : l'.Stores P := by
  rcases enter_cases henter with rfl | ⟨n, rfl⟩ | ⟨n, hn, hrest, rfl⟩
  · exact h
  · exact h.remove n
  · intro m text hm
    rw [Listing.get?, Numbered.get?_put] at hm
    split at hm
    · rename_i hmn
      obtain rfl := Option.some.inj hm
      exact hmn ▸ hP line n hnewline hn hrest
    · exact h m text hm

theorem Stores.enterAll (h : l.Stores P) {lines : List String}
    (hnewline : ∀ line ∈ lines, '\n' ∉ line.toList) (index : Nat) :
    (enterAll index lines l).2.Stores P := by
  induction lines generalizing l index with
  | nil => exact h
  | cons line lines ih =>
    obtain ⟨hline, hlines⟩ := List.forall_mem_cons.mp hnewline
    rw [Listing.enterAll]
    cases henter : l.enter line with
    | error e => exact h
    | ok l' => exact ih (h.enter hP hline henter) hlines (index + 1)

/-- What is so of every text that entering a line stores is so of all that a listing has. -/
theorem Built.stores (h : l.Built) : l.Stores P := by
  induction h with
  | empty =>
    intro n text hn
    cases hn
  | entered _ hnewline henter ih => exact ih.enter hP hnewline henter
  | loaded source _ ih => exact ih.enterAll hP (fun line hline => newline_not_mem_lines hline) 1
  | removed n _ ih => exact ih.remove n

end stores

/-- What a listing has under a number is one line that begins with the number. -/
theorem Built.isStored (h : l.Built) : l.Stores IsStored :=
  h.stores fun _ _ hnewline hnumber _ =>
    ⟨fun hmem => hnewline (Text.mem_of_mem_trimmed hmem), hnumber⟩

theorem IsStored.exists_cons {n : Nat} {text : String} (h : IsStored n text) :
    ∃ c cs, text.toList = c :: cs ∧ c.isDigit = true := by
  cases htext : text.toList with
  | nil =>
    have hnumber := h.number
    rw [htext] at hnumber
    cases hnumber
  | cons c cs =>
    refine ⟨c, cs, rfl, ?_⟩
    by_contra hc
    have hnumber := h.number
    rw [htext, List.takeWhile_cons_of_neg hc] at hnumber
    cases hnumber

/-- The first token of what is stored is a number. -/
theorem IsStored.beginsWithNumber {n : Nat} {text : String} (h : IsStored n text) :
    Program.BeginsWithNumber text := by
  obtain ⟨c, cs, htext, hc⟩ := h.exists_cons
  have hblank : Text.isBlank c = false := by
    by_contra hblank
    rw [Text.isDigit_of_isBlank (by simpa using hblank)] at hc
    cases hc
  have hrest : (Scanner.ofString text).skipGap.rest = c :: cs :=
    Scanner.skipGap_of_not_isBlank htext hblank
  have hnext : (Scanner.ofString text).next.1.kind = .number ∨
      (Scanner.ofString text).next.1.kind = .lineNumber := by
    rw [Scanner.next_of_not_remark rfl, Scanner.nextLexeme_of_cons hrest]
    dsimp only
    rw [Lexeme.read, if_pos (by simp [Lexeme.startsNumber, hc]), Lexeme.number]
    dsimp only
    split
    · exact .inr rfl
    · exact .inl rfl
  have hend : (Scanner.ofString text).next.1.kind ≠ .endOfInput := by
    rcases hnext with hkind | hkind <;> simp [hkind]
  exact ⟨_, _, Scanner.dropLast_tokens_of_ne_end hend, hnext⟩

/-- A listing without lines that break off spells the program that has its lines, each with the
statement that its text makes by itself. -/
theorem lineNumbers_program (hl : l.Built)
    (hlines : ∀ n text, l.get? n = some text → ¬ Program.BreaksOff text) {p : Program}
    (hp : l.program = .ok p) :
    p.lineNumbers = l.lines.numbers ∧
      ∀ n st, p.get? n = some st ↔ ∃ text, l.get? n = some text ∧
        Program.ofSource text = .ok (.single n st) := by
  have hstored : ∀ text ∈ l.lines.items, ∃ n, l.get? n = some text ∧ IsStored n text := by
    intro text htext
    obtain ⟨n, hn⟩ := mem_items_iff.mp htext
    exact ⟨n, hn, hl.isStored n text hn⟩
  have hsources : ∀ text ∈ l.lines.items, ∃ p, Program.ofSource text = .ok p := by
    refine Program.exists_ofSource_of_joinLines ?_ ?_ ?_ hp
    · intro text htext
      obtain ⟨n, -, hn⟩ := hstored text htext
      exact hn.newline
    · intro text htext
      obtain ⟨n, -, hn⟩ := hstored text htext
      exact hn.beginsWithNumber
    · intro text htext
      obtain ⟨n, hn, -⟩ := hstored text htext
      exact hlines n text hn
  have hsingle : ∀ n text, l.get? n = some text →
      '\n' ∉ text.toList ∧ ∃ st, Program.ofSource text = .ok (.single n st) := by
    intro n text hn
    have hstores := hl.isStored n text hn
    obtain ⟨q, hq⟩ := hsources text (mem_items_iff.mpr ⟨n, hn⟩)
    obtain ⟨c, cs, htext, hc⟩ := hstores.exists_cons
    have hblank : Text.isBlank c = false := by
      by_contra hblank
      rw [Text.isDigit_of_isBlank (by simpa using hblank)] at hc
      cases hc
    obtain ⟨m, st, rfl, hnumber, -⟩ :=
      Program.exists_single_of_ofSource htext hblank hstores.newline hq
    obtain rfl : n = m := Option.some.inj (hstores.number.symm.trans hnumber)
    exact ⟨hstores.newline, st, hq⟩
  obtain ⟨p', hp', hnumbers, hget⟩ := exists_program hsingle
  obtain rfl : p = p' := Except.ok.inj (hp.symm.trans hp')
  exact ⟨hnumbers.symm, hget⟩

/-- A line with a number in front, something behind it and no blanks around it is entered as it
stands. -/
theorem enter_of_trimmed (l : Listing) {n : Nat} {text : String}
    (hnumber : lineNumberOf? (String.ofList (text.toList.takeWhile Char.isDigit)) = some n)
    (htrimmed : Text.trimmed text = text)
    (hrest : ∃ c ∈ text.toList.dropWhile Char.isDigit, Text.isBlank c = false) :
    l.enter text = .ok ⟨l.lines.put n text⟩ := by
  have henter : l.enter text = .ok ⟨l.lines.put n (Text.trimmed text)⟩ := by
    apply enter_of_number
    · rw [htrimmed]
      exact hnumber
    · rw [htrimmed]
      exact hrest
  rwa [htrimmed] at henter

/-- A line with a number in front and something behind it can be put into a listing. -/
theorem Built.put (hl : l.Built) {n : Nat} {text : String} (h : IsStored n text)
    (htrimmed : Text.trimmed text = text)
    (hrest : ∃ c ∈ text.toList.dropWhile Char.isDigit, Text.isBlank c = false) :
    Built ⟨l.lines.put n text⟩ :=
  .entered hl h.newline (enter_of_trimmed l h.number htrimmed hrest)

/-- Two lines, the second of which was entered first. -/
def countdown : Listing :=
  ⟨(Numbered.empty.put 20 "20 IF A THEN 10").put 10 "10 LET A=A-B"⟩

theorem lineNumbers_program_countdown :
    countdown.Built ∧ (∀ n text, countdown.get? n = some text → ¬ Program.BreaksOff text) ∧
      ∃ p, countdown.program = .ok p ∧ p.lineNumbers = countdown.lines.numbers := by
  have hbuilt : countdown.Built := by
    have h20 : Built ⟨Numbered.empty.put 20 "20 IF A THEN 10"⟩ :=
      .put .empty ⟨by decide, by with_unfolding_all rfl⟩ (by with_unfolding_all rfl)
        ⟨'I', by decide, by decide⟩
    exact h20.put ⟨by decide, by with_unfolding_all rfl⟩ (by with_unfolding_all rfl)
      ⟨'L', by decide, by decide⟩
  have hsingle : ∀ n text, countdown.get? n = some text →
      '\n' ∉ text.toList ∧ ∃ st, Program.ofSource text = .ok (.single n st) := by
    intro n text hn
    rw [get?, countdown, Numbered.get?_put, Numbered.get?_put, Numbered.get?_empty] at hn
    split at hn
    · rename_i hten
      obtain rfl := Option.some.inj hn
      exact ⟨by decide, .assign ⟨"A"⟩ (.binary .subtract (.var ⟨"A"⟩) (.var ⟨"B"⟩)),
        hten ▸ by with_unfolding_all rfl⟩
    · split at hn
      · rename_i htwenty
        obtain rfl := Option.some.inj hn
        exact ⟨by decide, .cond (.var ⟨"A"⟩) (.goto 10), htwenty ▸ by with_unfolding_all rfl⟩
      · cases hn
  have hlines : ∀ n text, countdown.get? n = some text → ¬ Program.BreaksOff text := by
    rintro n text hn ⟨e, he, -⟩
    obtain ⟨-, st, hst⟩ := hsingle n text hn
    cases hst.symm.trans he
  obtain ⟨p, hp, -⟩ := exists_program hsingle
  exact ⟨hbuilt, hlines, p, hp, (lineNumbers_program hbuilt hlines hp).1⟩

/-- The first line breaks off within a string, which ends in the second. -/
def quoted : Listing :=
  ⟨(Numbered.empty.put 10 "10 PRINT \"A").put 20 "20 B\""⟩

theorem lineNumbers_program_quoted :
    quoted.Built ∧ quoted.lines.numbers = [10, 20] ∧ ∃ p, quoted.program = .ok p ∧
      p.lineNumbers = [10] := by
  have hbuilt : quoted.Built := by
    have h10 : Built ⟨Numbered.empty.put 10 "10 PRINT \"A"⟩ :=
      .put .empty ⟨by decide, by with_unfolding_all rfl⟩ (by with_unfolding_all rfl)
        ⟨'P', by decide, by decide⟩
    exact h10.put ⟨by decide, by with_unfolding_all rfl⟩ (by with_unfolding_all rfl)
      ⟨'B', by decide, by decide⟩
  have hsource : quoted.source = "10 PRINT \"A\n20 B\"" := by
    have hitems : quoted.lines.items = ["10 PRINT \"A", "20 B\""] := by rfl
    rw [source, hitems]
    with_unfolding_all rfl
  refine ⟨hbuilt, rfl, .single 10 (.print [.text "A\n20 B"]), ?_, rfl⟩
  rw [program, hsource]
  with_unfolding_all rfl

end Listing

end LineBasic
