import LineBasic.Proofs.Listing.Built

/-!
# Saving a listing and loading it again

What a listing has under a number is one line without blanks around it, which begins with the digits
of the number and has more than blanks behind them (`Listing.IsEntry`). Such lines are not changed
by writing them one below the other and reading the lines of the text again
(`Text.lines_joinLines`), and each of them is entered under its number as it stands
(`Listing.IsEntry.enter_eq`). So loading the source text of a listing gives the listing
(`Listing.load_source`).
-/

namespace LineBasic

/-! ## Numbered items put in order -/

namespace Numbered

variable {α : Type}

theorem ext_entries {l l' : Numbered α} (h : l.entries.toList = l'.entries.toList) : l = l' := by
  obtain ⟨entries, _⟩ := l
  obtain ⟨entries', _⟩ := l'
  obtain rfl : entries = entries' := Array.toList_inj.mp h
  rfl

/-- An item under a number larger than all others comes last. -/
theorem toList_put_of_lt {l : Numbered α} {e : Entry α}
    (h : ∀ d ∈ l.entries.toList, d.number < e.number) :
    (l.put e.number e.item).entries.toList = l.entries.toList ++ [e] := by
  have hbelow : l.entries.toList.filter (·.number < e.number) = l.entries.toList :=
    List.filter_eq_self.mpr fun d hd => by simpa using h d hd
  have habove : l.entries.toList.filter (e.number < ·.number) = [] :=
    List.filter_eq_nil_iff.mpr fun d hd => by simpa using Nat.le_of_lt (h d hd)
  simp [put, entriesWith, hbelow, habove]

/-- Items put under ascending numbers stand in that order. -/
theorem toList_foldl_put {l : Numbered α} {es : List (Entry α)}
    (h : (l.entries.toList ++ es).Pairwise (·.number < ·.number)) :
    (es.foldl (fun l e => l.put e.number e.item) l).entries.toList = l.entries.toList ++ es := by
  induction es generalizing l with
  | nil => simp
  | cons e es ih =>
    have hlast : ∀ d ∈ l.entries.toList, d.number < e.number :=
      fun d hd => (List.pairwise_append.mp h).2.2 d hd e List.mem_cons_self
    have hput := toList_put_of_lt hlast
    rw [List.foldl_cons, ih (by rwa [hput, List.append_assoc]), hput, List.append_assoc]
    rfl

/-- Putting the items of numbered lines under their numbers one after the other gives the lines
again. -/
theorem foldl_put_entries (l : Numbered α) :
    l.entries.toList.foldl (fun l e => l.put e.number e.item) .empty = l :=
  ext_entries (toList_foldl_put (l := .empty) l.ascending)

end Numbered

/-! ## Lines that were put together -/

namespace Text

theorem dropReturn_of_getLast? {cs : List Char} (h : cs.getLast? ≠ some '\r') :
    dropReturn cs = cs :=
  if_neg h

theorem splitLines_of_not_mem {cs : List Char} (h : '\n' ∉ cs) (hne : cs ≠ []) :
    splitLines cs = [cs] := by
  have hdrop : cs.dropWhile (· ≠ '\n') = [] :=
    List.dropWhile_eq_nil_iff.mpr fun c hc => decide_eq_true (ne_of_mem_of_not_mem hc h)
  rw [splitLines]
  split
  · simp [hne]
  · rename_i hcons
    rw [hdrop] at hcons
    cases hcons

theorem splitLines_append {cs rest : List Char} (h : '\n' ∉ cs) (hlast : cs.getLast? ≠ some '\r') :
    splitLines (cs ++ '\n' :: rest) = cs :: splitLines rest := by
  have hall : ∀ c ∈ cs, decide (c ≠ '\n') = true :=
    fun c hc => decide_eq_true (ne_of_mem_of_not_mem hc h)
  have htake : (cs ++ '\n' :: rest).takeWhile (· ≠ '\n') = cs := by
    rw [List.takeWhile_append_of_pos hall]
    simp
  have hdrop : (cs ++ '\n' :: rest).dropWhile (· ≠ '\n') = '\n' :: rest := by
    rw [List.dropWhile_append_of_pos hall]
    simp
  rw [splitLines]
  split
  · rename_i hnil
    rw [hdrop] at hnil
    cases hnil
  · rename_i c more hcons
    rw [hdrop] at hcons
    obtain ⟨-, rfl⟩ := List.cons.inj hcons
    rw [htake, dropReturn_of_getLast? hlast]

/-- Lines that are not empty and end in no carriage return are read as they were written. -/
theorem lines_joinLines {ls : List String}
    (h : ∀ l ∈ ls, '\n' ∉ l.toList ∧ l.toList ≠ [] ∧ l.toList.getLast? ≠ some '\r') :
    lines (joinLines ls) = ls := by
  have hsplit : splitLines (joinLines ls).toList = ls.map String.toList := by
    induction ls with
    | nil => simp [joinLines, splitLines]
    | cons l ls ih =>
      obtain ⟨⟨hnewline, hne, hlast⟩, hls⟩ := List.forall_mem_cons.mp h
      cases ls with
      | nil => rw [joinLines_singleton, splitLines_of_not_mem hnewline hne]; rfl
      | cons l' ls =>
        rw [Token.toList_joinLines_cons, splitLines_append hnewline hlast, ih hls]; rfl
  rw [lines, hsplit, List.map_map]
  simp

/-- The first and the last character of a text without the blanks around it are not blank. -/
theorem isBlank_trimmed (line : String) :
    (∀ c ∈ (trimmed line).toList.head?, isBlank c = false) ∧
      ∀ c ∈ (trimmed line).toList.getLast?, isBlank c = false := by
  rw [trimmed, String.toList_ofList]
  cases htext : trimStart (trimEnd line.toList) with
  | nil => simp
  | cons d ds =>
    obtain ⟨front, hfront⟩ : trimStart (trimEnd line.toList) <:+ trimEnd line.toList :=
      List.dropWhile_suffix isBlank
    have hne : trimEnd line.toList ≠ [] := by
      rw [← hfront, htext]
      simp
    have hlast : isBlank ((trimEnd line.toList).getLast hne) = false :=
      Bool.eq_false_iff.mpr (List.rdropWhile_last_not isBlank line.toList hne)
    constructor
    · intro c hc
      obtain rfl : d = c := by simpa using hc
      exact Lexeme.head_dropWhile htext
    · intro c hc
      rw [← List.getLast?_append_of_ne_nil front (List.cons_ne_nil d ds), ← htext, hfront,
        List.getLast?_eq_some_getLast hne] at hc
      exact Option.some.inj hc ▸ hlast

theorem trimmed_of_isBlank {text : String} (hhead : ∀ c ∈ text.toList.head?, isBlank c = false)
    (hlast : ∀ c ∈ text.toList.getLast?, isBlank c = false) : trimmed text = text := by
  have hend : trimEnd text.toList = text.toList :=
    List.rdropWhile_eq_self_iff.mpr fun hne => by simp [hlast _ (List.getLast?_eq_some_getLast hne)]
  have hstart : trimStart text.toList = text.toList := by
    cases htext : text.toList with
    | nil => rfl
    | cons c cs => exact trimStart_of_not_isBlank (hhead c (by rw [htext]; rfl))
  rw [trimmed, hend, hstart, String.ofList_toList]

end Text

namespace Listing

/-- A text as a listing has it under a number: one line without blanks around it, which begins with
the digits of the number and has more than blanks behind them. -/
structure IsEntry (n : Nat) (text : String) : Prop where
  one_le : 1 ≤ n
  le_max : n ≤ 99999
  newline : '\n' ∉ text.toList
  head : ∀ c ∈ text.toList.head?, Text.isBlank c = false
  last : ∀ c ∈ text.toList.getLast?, Text.isBlank c = false
  parts : ∃ digits rest, text.toList = digits ++ rest ∧ digits ≠ [] ∧
    (∀ c ∈ digits, c.isDigit = true) ∧
    (∀ c ∈ rest.head?, c.isDigit = false) ∧ Nat.ofDigitChars 10 digits 0 = n ∧
      ∃ c ∈ rest, Text.isBlank c = false

variable {l : Listing}

theorem Built.isEntry (h : l.Built) : l.Stores IsEntry := by
  refine h.stores fun line n hnewline hnumber hrest => ?_
  obtain ⟨hhead, hlast⟩ := Text.isBlank_trimmed line
  have hdigits : ∀ c ∈ (Text.trimmed line).toList.takeWhile Char.isDigit, c.isDigit = true :=
    fun c hc => List.mem_takeWhile_imp hc
  have hplus : '+' ∉
      (String.ofList ((Text.trimmed line).toList.takeWhile Char.isDigit)).toList := by
    rw [String.toList_ofList]
    exact fun hmem => absurd (hdigits '+' hmem) (by decide)
  obtain ⟨hne, -, hvalue, hline⟩ := (lineNumberOf?_eq_some_iff hplus).mp hnumber
  rw [String.toList_ofList] at hvalue
  obtain ⟨hone, hmax⟩ := isLineNumber_iff.mp hline
  refine ⟨hone, hmax, fun hmem => hnewline (Text.mem_of_mem_trimmed hmem), hhead, hlast, _, _,
    List.takeWhile_append_dropWhile.symm, ?_, hdigits, ?_, hvalue, ?_⟩
  · rintro hnil
    rw [hnil] at hne
    exact hne rfl
  · intro c hc
    obtain ⟨cs, hcs⟩ := List.head?_eq_some_iff.mp hc
    exact Lexeme.head_dropWhile hcs
  · by_contra hblanks
    have hall : ∀ c ∈ (Text.trimmed line).toList.dropWhile Char.isDigit, Text.isBlank c = true := by
      simpa only [not_exists, not_and, Bool.not_eq_false] using hblanks
    refine hrest ?_
    rw [Text.trim, Text.trimStart, List.dropWhile_eq_nil_iff.mpr hall]
    rfl

namespace IsEntry

variable {n : Nat} {text : String}

theorem enter_eq (h : IsEntry n text) (l : Listing) : l.enter text = .ok ⟨l.lines.put n text⟩ := by
  obtain ⟨digits, rest, htext, hne, hdigits, hrest, hvalue, hblank⟩ := h.parts
  have htake : text.toList.takeWhile Char.isDigit = digits := by
    rw [htext, takeWhile_append_of_head hrest, List.takeWhile_eq_self_iff.mpr hdigits]
  have hdrop : text.toList.dropWhile Char.isDigit = rest := by
    rw [htext, dropWhile_append_of_head hrest, List.dropWhile_eq_nil_iff.mpr hdigits]
    rfl
  have hplus : '+' ∉ (String.ofList digits).toList := by
    rw [String.toList_ofList]
    exact fun hmem => absurd (hdigits '+' hmem) (by decide)
  have hnumber : lineNumberOf? (String.ofList digits) = some n := by
    rw [lineNumberOf?_eq_some_iff hplus, String.toList_ofList]
    exact ⟨by simpa using hne, hdigits, hvalue, isLineNumber_iff.mpr ⟨h.one_le, h.le_max⟩⟩
  exact enter_of_trimmed l (by rw [htake, hnumber]) (Text.trimmed_of_isBlank h.head h.last)
    (by rwa [hdrop])

/-- A text that a listing has is a line that survives being written and read. -/
theorem isLine (h : IsEntry n text) :
    '\n' ∉ text.toList ∧ text.toList ≠ [] ∧ text.toList.getLast? ≠ some '\r' := by
  obtain ⟨digits, rest, htext, hne, -⟩ := h.parts
  refine ⟨h.newline, by simp [htext, hne], fun hreturn => ?_⟩
  exact absurd (h.last '\r' hreturn) (by decide)

end IsEntry

theorem enterAll_entries {es : List (Entry String)} (h : ∀ e ∈ es, IsEntry e.number e.item)
    (index : Nat) (l : Listing) :
    enterAll index (es.map (·.item)) l =
      (.ok (), ⟨es.foldl (fun l e => l.put e.number e.item) l.lines⟩) := by
  induction es generalizing index l with
  | nil => rfl
  | cons e es ih =>
    obtain ⟨he, hes⟩ := List.forall_mem_cons.mp h
    rw [List.map_cons, enterAll, he.enter_eq]
    exact ih hes (index + 1) _

/-- What a listing has is loaded again from its source text, under the same numbers and letter for
letter. -/
theorem load_source (hl : l.Built) :
    (∀ n text, l.get? n = some text → IsEntry n text) ∧ load l.source .empty = (.ok (), l) := by
  have hentries : ∀ e ∈ l.lines.entries.toList, IsEntry e.number e.item := by
    intro e he
    exact hl.isEntry e.number e.item (l.lines.get?_eq_some_iff.mpr (Array.mem_toList_iff.mp he))
  refine ⟨hl.isEntry, ?_⟩
  have hlines : Text.lines l.source = l.lines.items := by
    refine Text.lines_joinLines fun text htext => ?_
    obtain ⟨n, hn⟩ := mem_items_iff.mp htext
    exact (hl.isEntry n text hn).isLine
  rw [load, hlines, Numbered.items, enterAll_entries hentries]
  exact congrArg (fun lines => (Except.ok (), (⟨lines⟩ : Listing))) l.lines.foldl_put_entries

/-- What remains of a text whose third line has no number, with blanks around its lines and a zero
in front of a number. -/
def halfLoaded : Listing :=
  (Listing.empty.load "  20 PRINT \"A \" \t\r\n 010 LET  B=2\nEND\n30 END").2

theorem load_source_halfLoaded :
    halfLoaded.Built ∧ halfLoaded.source = "010 LET  B=2\n20 PRINT \"A \"" ∧
      load halfLoaded.source .empty = (.ok (), halfLoaded) := by
  have hbuilt : halfLoaded.Built := .loaded _ .empty
  exact ⟨hbuilt, by decide +kernel, (load_source hbuilt).2⟩

end Listing

end LineBasic
