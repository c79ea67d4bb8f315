import LineBasic.Listing
import LineBasic.Proofs.Program.Trimmed
import LineBasic.Proofs.Token.Spelled

/-!
# Loading a text into a listing

A line that makes a program by itself is entered under the number with which the program has its
statement, and its text without the blanks around it makes the same program
(`Listing.enter_of_ofSource`). The lines of a text are those between its newlines, each perhaps
without a carriage return (`Text.exists_padded_lines`), which is a space between tokens. So loading
a text and reading the listing comes to the same as reading the text (`Listing.program_load`).
-/

namespace LineBasic

/-! ## The number of a line -/

theorem isDigit_of_lineNumberOf? {s : String} {n : Nat} (h : lineNumberOf? s = some n) {c : Char}
    (hc : c ∈ s.toList) : c = '+' ∨ c.isDigit = true := by
  have hdigits : ∀ ds : List Char,
      (if !ds.isEmpty && ds.all Char.isDigit && isLineNumber (Number.ofDigits ds) then
      some (Number.ofDigits ds) else none) = some n → c ∈ ds → c.isDigit = true := by
    intro ds hds hmem
    split at hds
    · rename_i hcond
      simp only [Bool.and_eq_true, List.all_eq_true] at hcond
      exact hcond.1.2 c hmem
    · cases hds
  unfold lineNumberOf? at h
  dsimp only at h
  split at h
  · rename_i ds hplus
    rw [hplus] at hc
    exact (List.mem_cons.mp hc).imp_right (hdigits ds h)
  · exact .inr (hdigits _ h hc)

namespace Lexeme

/-- A number that is a line number is made of the digits at the start. -/
theorem splitNumber_of_lineNumberOf? {cs : List Char} {n : Nat}
    (h : lineNumberOf? (String.ofList (splitNumber cs).1) = some n) :
    splitNumber cs = (cs.takeWhile Char.isDigit, cs.dropWhile Char.isDigit) := by
  have hpoint : '.' ∉ (splitNumber cs).1 := by
    intro hmem
    rcases isDigit_of_lineNumberOf? h (c := '.') (by rwa [String.toList_ofList]) with hc | hc
    · cases hc
    · cases hc
  unfold splitNumber at hpoint ⊢
  dsimp only at hpoint ⊢
  split
  · rename_i d rest hdrop
    split
    · rename_i hd
      simp [hdrop, hd] at hpoint
    · rw [hdrop]
  · rfl

end Lexeme

/-! ## Entering a line -/

theorem Scanner.skipGap_of_not_isBlank {s : Scanner} {c : Char} {cs : List Char}
    (hrest : s.rest = c :: cs) (hc : Text.isBlank c = false) : s.skipGap.rest = c :: cs := by
  have hgap : isGap c = false := by
    by_contra hgap
    rw [Bool.not_eq_false] at hgap
    rw [isBlank_of_isGap hgap] at hc
    cases hc
  rw [skipGap_rest, hrest, List.dropWhile_cons_of_neg (by simp [hgap])]

/-- A scanner that reads a line number reads the digits at the start, and no more. -/
theorem Scanner.next_of_isTarget {s : Scanner} {c : Char} {cs : List Char} {n : Nat}
    (hremark : s.remark = false) (hrest : s.skipGap.rest = c :: cs) (ht : s.next.1.IsTarget n) :
    lineNumberOf? (String.ofList ((c :: cs).takeWhile Char.isDigit)) = some n ∧
      s.next.2.rest = (c :: cs).dropWhile Char.isDigit ∧ s.next.2.remark = false := by
  rw [next_of_not_remark hremark, nextLexeme_of_cons hrest] at ht ⊢
  obtain ⟨hkind, hnumber⟩ := ht
  have hread := (Lexeme.read_of_number hkind).2
  have htext : lineNumberOf? (String.ofList (Lexeme.splitNumber (c :: cs)).1) = some n := by
    rw [hread] at hnumber
    exact hnumber
  have hsplit := Lexeme.splitNumber_of_lineNumberOf? htext
  rw [hsplit] at htext
  refine ⟨htext, ?_, ?_⟩
  · rw [hread]
    exact congrArg Prod.snd hsplit
  · dsimp only at hkind
    rcases hkind with hkind | hkind <;> simp [hkind]

namespace Program

variable {line : String} {p : Program}

theorem eq_empty_of_ofSource (hline : line.toList = []) (h : ofSource line = .ok p) :
    p = .empty := by
  have hbody : Token.body line = [] := by
    apply Scanner.dropLast_tokens_of_gap rfl
    rw [Scanner.skipGap_rest, Scanner.ofString, hline, List.dropWhile_nil]
  have hderives := (isProgramLine_of_ofSource (by simp [hline]) h).derives
  rcases derivesLine_iff.mp hderives with ⟨-, hempty⟩ | ⟨t, ts, n, st, hcons, -⟩
  · exact hempty
  · rw [hbody] at hcons
    cases hcons

/-- A line that makes a program and does not begin with a blank begins with the digits of its
number, and there is more than blanks behind them. -/
theorem exists_single_of_ofSource {c : Char} {cs : List Char} (hline : line.toList = c :: cs)
    (hc : Text.isBlank c = false) (hnewline : '\n' ∉ line.toList) (h : ofSource line = .ok p) :
    ∃ n st, p = .single n st ∧ lineNumberOf? (String.ofList (line.toList.takeWhile Char.isDigit)) =
      some n ∧
      ∃ d ∈ line.toList.dropWhile Char.isDigit, Text.isBlank d = false := by
  have hlegal : (Scanner.ofString line).Legal := not_illegal_of_ofSource h
  have hrest : (Scanner.ofString line).skipGap.rest = c :: cs :=
    Scanner.skipGap_of_not_isBlank hline hc
  have hremark : (Scanner.ofString line).remark = false := rfl
  have hbody : Token.body line = (Scanner.ofString line).tokens.dropLast := rfl
  have hderives := (isProgramLine_of_ofSource hnewline h).derives
  rw [hbody] at hderives
  rw [hline]
  generalize Scanner.ofString line = s at hlegal hrest hremark hderives
  have hend : s.next.1.kind ≠ .endOfInput := by
    rw [Scanner.next_of_not_remark hremark, Scanner.nextLexeme_of_cons hrest]
    exact (Lexeme.spelling_read _ c cs).kind_ne_end
  rw [Scanner.dropLast_tokens_of_ne_end hend] at hderives
  rcases derivesLine_iff.mp hderives with ⟨hnil, -⟩ | ⟨t, ts, n, st, hcons, ht, hstatement, hp⟩
  · cases hnil
  · obtain ⟨rfl, rfl⟩ := List.cons.inj hcons
    obtain ⟨hnumber, hbehind, hremark'⟩ := Scanner.next_of_isTarget hremark hrest ht
    refine ⟨n, st, hp, hnumber, ?_⟩
    -- A statement has tokens, and legal tokens do not come of blanks.
    by_contra hblanks
    have hall : ∀ d ∈ s.next.2.rest, Text.isBlank d = true := by
      intro d hd
      by_contra hd'
      exact hblanks ⟨d, hbehind ▸ hd, Bool.eq_false_iff.mpr hd'⟩
    obtain ⟨u, us, hus, -⟩ := hstatement.exists_cons
    rw [(hlegal.next hend).dropLast_tokens hremark' hall] at hus
    cases hus

end Program

namespace Listing

variable {line : String} {p : Program}

theorem enter_of_nil (l : Listing) (h : (Text.trimmed line).toList = []) :
    l.enter line = .ok l := by
  rw [Text.trimmed, String.toList_ofList] at h
  simp [enter, h]

theorem enter_of_number (l : Listing) {n : Nat}
    (hnumber : lineNumberOf? (String.ofList ((Text.trimmed line).toList.takeWhile Char.isDigit)) =
    some n)
    (hrest : ∃ c ∈ (Text.trimmed line).toList.dropWhile Char.isDigit, Text.isBlank c = false) :
    l.enter line = .ok ⟨l.lines.put n (Text.trimmed line)⟩ := by
  have hdigits : (Text.trimmed line).toList.takeWhile Char.isDigit ≠ [] := by
    intro hnil
    rw [hnil] at hnumber
    cases hnumber
  have htext : (Text.trimmed line).toList ≠ [] := by
    intro hnil
    rw [hnil] at hdigits
    exact hdigits rfl
  have htrim : Text.trim ((Text.trimmed line).toList.dropWhile Char.isDigit) ≠ [] := by
    intro hnil
    obtain ⟨c, hc, hblank⟩ := hrest
    rw [Text.isBlank_of_trim_eq_nil hnil c hc] at hblank
    cases hblank
  rw [Text.trimmed, String.toList_ofList] at hnumber hdigits htext htrim
  simp [enter, htext, hdigits, hnumber, htrim, Text.trimmed]

/-- Entering a line that makes a program by itself: a blank line changes nothing, and another puts
its text under its number. -/
theorem enter_of_ofSource (l : Listing) (hnewline : '\n' ∉ line.toList)
    (h : Program.ofSource line = .ok p) :
    p = .empty ∧ l.enter line = .ok l ∨
      ∃ n st, p = .single n st ∧ l.enter line = .ok ⟨l.lines.put n (Text.trimmed line)⟩ := by
  have hnewline' : '\n' ∉ (Text.trimmed line).toList :=
    fun hmem => hnewline (Text.mem_of_mem_trimmed hmem)
  have htrimmed := Program.ofSource_trimmed hnewline h
  cases htext : (Text.trimmed line).toList with
  | nil => exact .inl ⟨Program.eq_empty_of_ofSource htext htrimmed, l.enter_of_nil htext⟩
  | cons c cs =>
    have hblank : Text.isBlank c = false := by
      rw [Text.trimmed, String.toList_ofList] at htext
      exact Lexeme.head_dropWhile htext
    obtain ⟨n, st, hp, hnumber, hrest⟩ :=
      Program.exists_single_of_ofSource htext hblank hnewline' htrimmed
    exact .inr ⟨n, st, hp, l.enter_of_number hnumber hrest⟩

/-- Entering lines with different numbers that the listing does not have. -/
theorem exists_enterAll {program : String → Program} {lines : List String} (l : Listing)
    (index : Nat) (hnewline : ∀ line ∈ lines, '\n' ∉ line.toList)
    (hprogram : ∀ line ∈ lines, Program.ofSource line = .ok (program line))
    (hnodup : (Program.numbersOf program lines).Nodup)
    (hnew : ∀ n ∈ Program.numbersOf program lines, n ∉ l.lines.numbers) :
    ∃ l' : Listing, enterAll index lines l = (.ok (), l') ∧
      ∀ n text, l'.get? n = some text ↔
        l.get? n = some text ∨ ∃ line ∈ lines, n ∈ (program line).lineNumbers ∧
          Text.trimmed line = text := by
  induction lines generalizing l index with
  | nil => exact ⟨l, rfl, by simp⟩
  | cons line lines ih =>
    obtain ⟨hline, hlines⟩ := List.forall_mem_cons.mp hnewline
    obtain ⟨hread, hreads⟩ := List.forall_mem_cons.mp hprogram
    rw [Program.numbersOf_cons] at hnodup hnew
    obtain ⟨-, hnodup', hdisjoint⟩ := List.nodup_append.mp hnodup
    rw [enterAll]
    rcases l.enter_of_ofSource hline hread with ⟨hempty, henter⟩ | ⟨n, st, hsingle, henter⟩
    · rw [henter]
      obtain ⟨l', hl', hget⟩ :=
        ih l (index + 1) hlines hreads hnodup' fun n hn => hnew n (List.mem_append_right _ hn)
      refine ⟨l', hl', fun n text => ?_⟩
      rw [hget]
      simp [hempty, Program.lineNumbers_empty]
    · rw [henter]
      rw [hsingle, Program.lineNumbers_single] at hnew hdisjoint
      have hput : ∀ m ∈ Program.numbersOf program lines,
          m ∉ (⟨l.lines.put n (Text.trimmed line)⟩ : Listing).lines.numbers := by
        intro m hm hmem
        obtain ⟨text, htext⟩ := Numbered.mem_numbers_iff.mp hmem
        rw [Numbered.get?_put] at htext
        split at htext
        · rename_i hmn
          exact hdisjoint n (by simp) m hm hmn.symm
        · exact hnew m (List.mem_append_right _ hm) (Numbered.mem_numbers_iff.mpr ⟨text, htext⟩)
      obtain ⟨l', hl', hget⟩ :=
        ih ⟨l.lines.put n (Text.trimmed line)⟩ (index + 1) hlines hreads hnodup' hput
      refine ⟨l', hl', fun m text => ?_⟩
      have hnone : ∀ text, l.get? n ≠ some text := by
        intro text htext
        exact hnew n (by simp) (Numbered.mem_numbers_iff.mpr ⟨text, htext⟩)
      rw [hget, Listing.get?, Numbered.get?_put]
      by_cases hm : m = n
      · subst hm
        simp [hnone, hsingle, Program.lineNumbers_single]
      · simp [hm, hsingle, Program.lineNumbers_single, Listing.get?]

end Listing

/-! ## The lines of a text -/

namespace Text

/-- A text is a line with spaces at its end. -/
def IsPadded (text line : String) : Prop :=
  ∃ spaces, text.toList = line.toList ++ spaces ∧ ∀ c ∈ spaces, isSpace c = true

theorem IsPadded.refl (line : String) : IsPadded line line :=
  ⟨[], by simp, by simp⟩

theorem isPadded_dropReturn (cs : List Char) :
    IsPadded (String.ofList cs) (String.ofList (dropReturn cs)) := by
  unfold dropReturn
  split
  · rename_i hlast
    refine ⟨['\r'], ?_, by simp [isSpace]⟩
    rw [String.toList_ofList, String.toList_ofList]
    exact (List.dropLast_append_getLast? '\r' hlast).symm
  · exact .refl _

/-- A text is its lines put together, each with a carriage return or without, and perhaps an empty
one behind them. -/
theorem exists_padded_lines (cs : List Char) :
    ∃ text texts blank, (blank = [] ∨ blank = [""]) ∧ (joinLines (text :: texts)).toList = cs ∧
      (∀ t ∈ text :: texts, '\n' ∉ t.toList) ∧
      List.Forall₂ IsPadded (text :: texts) ((splitLines cs).map String.ofList ++ blank) := by
  fun_induction splitLines cs with
  | case1 cs hdrop hempty =>
    obtain rfl := List.isEmpty_iff.mp hempty
    exact ⟨"", [], [""], .inr rfl, by simp [joinLines], by simp, .cons (.refl "") .nil⟩
  | case2 cs hdrop hempty =>
    have hnewline : '\n' ∉ cs :=
      fun hmem => by simpa using List.dropWhile_eq_nil_iff.mp hdrop '\n' hmem
    exact ⟨String.ofList cs, [], [], .inl rfl, by simp [joinLines], by simpa using hnewline,
      .cons (.refl _) .nil⟩
  | case3 cs c rest hdrop ih =>
    obtain ⟨text, texts, blank, hblank, hjoin, hnewline, hpadded⟩ := ih
    obtain rfl : c = '\n' := by simpa using Lexeme.head_dropWhile hdrop
    refine ⟨String.ofList (cs.takeWhile (· ≠ '\n')), text :: texts, blank, hblank, ?_, ?_, ?_⟩
    · rw [Token.toList_joinLines_cons, hjoin, String.toList_ofList, ← hdrop]
      exact List.takeWhile_append_dropWhile
    · refine List.forall_mem_cons.mpr ⟨?_, hnewline⟩
      rw [String.toList_ofList]
      intro hmem
      simpa using List.mem_takeWhile_imp hmem
    · exact .cons (isPadded_dropReturn _) hpadded

end Text

namespace Program

variable {program : String → Program} {p : Program} {source : String}

/-- The program of a line, and none if it makes no program. -/
def ofLine (line : String) : Program :=
  match ofSource line with
  | .ok p => p
  | .error _ => .empty

theorem ofLine_of_ofSource {line : String} (h : ofSource line = .ok p) : ofLine line = p := by
  rw [ofLine, h]

theorem ofSource_of_isPadded {text line : String} (h : Text.IsPadded text line)
    (hnewline : '\n' ∉ text.toList) (hline : ofSource line = .ok p) : ofSource text = .ok p := by
  obtain ⟨spaces, htext, hspaces⟩ := h
  exact ofSource_append_spaces htext hnewline hspaces hline

/-- Lines with spaces at their ends make the programs of the lines. -/
theorem ofLine_of_padded {texts lines : List String} (h : List.Forall₂ Text.IsPadded texts lines)
    (hnewline : ∀ t ∈ texts, '\n' ∉ t.toList) (hread : ∀ l ∈ lines, ofSource l = .ok (ofLine l)) :
    (∀ t ∈ texts, ofSource t = .ok (ofLine t)) ∧ texts.map ofLine = lines.map ofLine := by
  induction h with
  | nil => simp
  | @cons text line texts lines hpadded _ ih =>
    obtain ⟨htext, htexts⟩ := List.forall_mem_cons.mp hnewline
    obtain ⟨hline, hlines⟩ := List.forall_mem_cons.mp hread
    obtain ⟨hall, hmap⟩ := ih htexts hlines
    have hsource := ofSource_of_isPadded hpadded htext hline
    have heq := ofLine_of_ofSource hsource
    refine ⟨List.forall_mem_cons.mpr ⟨?_, hall⟩, ?_⟩
    · rw [heq, hsource]
    · rw [List.map_cons, List.map_cons, heq, hmap]

theorem numbersOf_eq_flatMap (program : String → Program) (lines : List String) :
    numbersOf program lines = (lines.map program).flatMap lineNumbers := by
  rw [numbersOf, List.flatMap_map]

theorem ofSource_empty : ofSource "" = .ok .empty := by with_unfolding_all rfl

/-- A text whose lines make programs with different numbers makes the program of all the lines. -/
theorem exists_ofSource_of_lines (hprogram : ∀ l ∈ Text.lines source, ofSource l = .ok (program l))
    (hnodup : (numbersOf program (Text.lines source)).Nodup) :
    ∃ p : Program, ofSource source = .ok p ∧
      ∀ n st, p.get? n = some st ↔ ∃ l ∈ Text.lines source, (program l).get? n = some st := by
  obtain ⟨text, texts, blank, hblank, hjoin, hnewline, hpadded⟩ :=
    Text.exists_padded_lines source.toList
  have hlines : (Text.lines source).map ofLine = (Text.lines source).map program :=
    List.map_congr_left fun l hl => ofLine_of_ofSource (hprogram l hl)
  have hempty : blank.map ofLine = blank.map fun _ => .empty := by
    rcases hblank with rfl | rfl
    · rfl
    · simp [ofLine_of_ofSource ofSource_empty]
  have hread : ∀ l ∈ Text.lines source ++ blank, ofSource l = .ok (ofLine l) := by
    refine List.forall_mem_append.mpr ⟨fun l hl => ?_, fun l hl => ?_⟩
    · rw [ofLine_of_ofSource (hprogram l hl), hprogram l hl]
    · have hl : l = "" := by rcases hblank with rfl | rfl <;> simp_all
      rw [hl, ofLine_of_ofSource ofSource_empty, ofSource_empty]
  obtain ⟨hall, hmap⟩ := ofLine_of_padded hpadded hnewline hread
  have hprograms : (text :: texts).map ofLine =
      (Text.lines source).map program ++ blank.map fun _ => .empty := by
    rw [hmap, ← hlines, ← hempty]
    exact List.map_append
  have hnumbers : numbersOf ofLine (text :: texts) = numbersOf program (Text.lines source) := by
    rw [numbersOf_eq_flatMap, hprograms, List.flatMap_append, ← numbersOf_eq_flatMap]
    simp [lineNumbers_empty]
  obtain ⟨p, hp, hget⟩ := exists_ofSource_joinLines hnewline hall (hnumbers ▸ hnodup)
  refine ⟨p, ?_, fun n st => ?_⟩
  · rw [← hp, String.toList_inj.mp hjoin]
  · have hmem : (∃ q ∈ (text :: texts).map ofLine, q.get? n = some st) ↔
        ∃ q ∈ (Text.lines source).map program, q.get? n = some st := by
      rw [hprograms]
      simp [or_and_right, exists_or, get?_empty]
    rw [hget]
    simpa only [List.mem_map, exists_exists_and_eq_and] using hmem

end Program

namespace Listing

theorem newline_not_mem_lines {source line : String} (h : line ∈ Text.lines source) :
    '\n' ∉ line.toList := by
  obtain ⟨text, texts, blank, -, -, hnewline, hpadded⟩ := Text.exists_padded_lines source.toList
  have hlines : ∀ {texts lines : List String}, List.Forall₂ Text.IsPadded texts lines →
      (∀ t ∈ texts, '\n' ∉ t.toList) → ∀ l ∈ lines, '\n' ∉ l.toList := by
    intro texts lines hpadded hnewline
    induction hpadded with
    | nil => simp
    | @cons text line texts lines hpadded _ ih =>
      obtain ⟨htext, htexts⟩ := List.forall_mem_cons.mp hnewline
      obtain ⟨spaces, heq, -⟩ := hpadded
      refine List.forall_mem_cons.mpr ⟨fun hmem => htext ?_, ih htexts⟩
      rw [heq]
      exact List.mem_append_left spaces hmem
  exact hlines hpadded hnewline line (List.mem_append_left blank h)

theorem mem_items_iff {l : Listing} {text : String} :
    text ∈ l.lines.items ↔ ∃ n, l.get? n = some text := by
  simp only [Numbered.items, List.mem_map, Array.mem_toList_iff, get?, Numbered.get?_eq_some_iff]
  constructor
  · rintro ⟨e, he, rfl⟩
    exact ⟨e.number, he⟩
  · rintro ⟨n, hn⟩
    exact ⟨_, hn, rfl⟩

/-- A listing whose lines make programs with their numbers spells the program of all the lines. -/
theorem exists_program {l : Listing} (h : ∀ n text, l.get? n = some text →
      '\n' ∉ text.toList ∧ ∃ st, Program.ofSource text = .ok (.single n st)) :
    ∃ p, l.program = .ok p ∧ l.lines.numbers = p.lineNumbers ∧
      ∀ n st, p.get? n = some st ↔ ∃ text, l.get? n = some text ∧
        Program.ofSource text = .ok (.single n st) := by
  have hnewline : ∀ text ∈ l.lines.items, '\n' ∉ text.toList := by
    intro text htext
    obtain ⟨n, hn⟩ := mem_items_iff.mp htext
    exact (h n text hn).1
  have hread : ∀ text ∈ l.lines.items, Program.ofSource text = .ok (Program.ofLine text) := by
    intro text htext
    obtain ⟨n, hn⟩ := mem_items_iff.mp htext
    obtain ⟨-, st, hst⟩ := h n text hn
    rw [Program.ofLine_of_ofSource hst, hst]
  have hnumbers : Program.numbersOf Program.ofLine l.lines.items = l.lines.numbers := by
    rw [Program.numbersOf, Numbered.items, List.flatMap_map, Numbered.numbers, List.map_eq_flatMap]
    apply List.flatMap_congr
    intro e he
    obtain ⟨-, st, hst⟩ :=
      h e.number e.item (l.lines.get?_eq_some_iff.mpr (Array.mem_toList_iff.mp he))
    rw [Program.ofLine_of_ofSource hst, Program.lineNumbers_single]
  obtain ⟨p, hp, hget⟩ :=
    Program.exists_ofSource_joinLines hnewline hread (hnumbers ▸ l.lines.nodup_numbers)
  have hpget : ∀ n st, p.get? n = some st ↔
      ∃ text, l.get? n = some text ∧ Program.ofSource text = .ok (.single n st) := by
    intro n st
    rw [hget]
    constructor
    · rintro ⟨text, htext, hst⟩
      obtain ⟨m, hm⟩ := mem_items_iff.mp htext
      obtain ⟨-, st', hst'⟩ := h m text hm
      rw [Program.ofLine_of_ofSource hst'] at hst
      obtain ⟨rfl, rfl⟩ := Program.get?_single.mp hst
      exact ⟨text, hm, hst'⟩
    · rintro ⟨text, htext, hst⟩
      refine ⟨text, mem_items_iff.mpr ⟨n, htext⟩, ?_⟩
      rw [Program.ofLine_of_ofSource hst]
      exact Program.get?_single.mpr ⟨rfl, rfl⟩
  refine ⟨p, hp, ?_, hpget⟩
  apply eq_of_mem_iff_of_pairwise_lt l.lines.pairwise_numbers p.pairwise_lineNumbers
  intro n
  rw [Numbered.mem_numbers_iff, Program.mem_lineNumbers_iff]
  constructor
  · rintro ⟨text, htext⟩
    obtain ⟨-, st, hst⟩ := h n text htext
    exact ⟨st, (hpget n st).mpr ⟨text, htext, hst⟩⟩
  · rintro ⟨st, hst⟩
    obtain ⟨text, htext, -⟩ := (hpget n st).mp hst
    exact ⟨text, htext⟩

section load

variable {source : String} {program : String → Program}

/-- Loading a text puts the lines of the text, without the blanks around them, under their
numbers. -/
theorem exists_load
    (hprogram : ∀ line ∈ Text.lines source, Program.ofSource line = .ok (program line))
    (hnodup : (Program.numbersOf program (Text.lines source)).Nodup) :
    ∃ l, load source .empty = (.ok (), l) ∧
      ∀ n text, l.get? n = some text ↔
        ∃ line ∈ Text.lines source, n ∈ (program line).lineNumbers ∧ Text.trimmed line = text := by
  have hnew : ∀ n ∈ Program.numbersOf program (Text.lines source), n ∉ empty.lines.numbers := by
    simp [empty, Numbered.numbers, Numbered.empty]
  obtain ⟨l, hload, hget⟩ :=
    exists_enterAll .empty 1 (fun _ => newline_not_mem_lines) hprogram hnodup hnew
  refine ⟨l, hload, fun n text => ?_⟩
  rw [hget]
  simp [empty, get?]

/-- Each line of a listing that was loaded makes the program of the line of the text from which it
came. -/
theorem exists_single_of_line
    (hprogram : ∀ line ∈ Text.lines source, Program.ofSource line = .ok (program line))
    {line : String} (hline : line ∈ Text.lines source) {n : Nat}
    (hn : n ∈ (program line).lineNumbers) :
    ∃ st, program line = .single n st ∧
      Program.ofSource (Text.trimmed line) = .ok (.single n st) := by
  have hnewline : '\n' ∉ line.toList := newline_not_mem_lines hline
  have htrimmed := Program.ofSource_trimmed hnewline (hprogram line hline)
  have hderives := (Program.isProgramLine_of_ofSource hnewline (hprogram line hline)).derives
  rcases Program.derivesLine_iff.mp hderives with ⟨-, hempty⟩ | ⟨-, -, m, st, -, -, -, hst⟩
  · rw [hempty, Program.lineNumbers_empty] at hn
    cases hn
  · rw [hst, Program.lineNumbers_single] at hn
    obtain rfl := List.mem_singleton.mp hn
    exact ⟨st, hst, hst ▸ htrimmed⟩

end load

/-- The line buffer and the source text agree. If each line of a text makes a program by itself and
no number occurs twice, the text can be loaded, and the listing spells the program that the text
makes, with a line under each of its numbers. -/
theorem program_load (source : String) (program : String → Program)
    (hprogram : ∀ line ∈ Text.lines source, Program.ofSource line = .ok (program line))
    (hnodup : (Program.numbersOf program (Text.lines source)).Nodup) :
    ∃ l p, load source .empty = (.ok (), l) ∧ l.program = .ok p ∧ Program.ofSource source = .ok p ∧
      l.lines.numbers = p.lineNumbers := by
  obtain ⟨l, hload, hget⟩ := exists_load hprogram hnodup
  have hentry : ∀ n text, l.get? n = some text →
      '\n' ∉ text.toList ∧ ∃ st, Program.ofSource text = .ok (.single n st) := by
    intro n text htext
    obtain ⟨line, hline, hn, rfl⟩ := (hget n text).mp htext
    obtain ⟨st, -, hst⟩ := exists_single_of_line hprogram hline hn
    exact ⟨fun hmem => newline_not_mem_lines hline (Text.mem_of_mem_trimmed hmem), st, hst⟩
  obtain ⟨p, hp, hnumbers, hpget⟩ := exists_program hentry
  obtain ⟨q, hq, hqget⟩ := Program.exists_ofSource_of_lines hprogram hnodup
  have hpq : p = q := by
    apply Program.ext_get?
    intro n st
    rw [hpget, hqget]
    constructor
    · rintro ⟨text, htext, hst⟩
      obtain ⟨line, hline, hn, rfl⟩ := (hget n text).mp htext
      obtain ⟨st', hprogram', hst'⟩ := exists_single_of_line hprogram hline hn
      refine ⟨line, hline, ?_⟩
      rw [hprogram', ← Except.ok.inj (hst.symm.trans hst')]
      exact Program.get?_single.mpr ⟨rfl, rfl⟩
    · rintro ⟨line, hline, hst⟩
      have hn : n ∈ (program line).lineNumbers := Program.mem_lineNumbers_iff.mpr ⟨st, hst⟩
      obtain ⟨st', hprogram', hst'⟩ := exists_single_of_line hprogram hline hn
      rw [hprogram'] at hst
      obtain ⟨-, rfl⟩ := Program.get?_single.mp hst
      exact ⟨Text.trimmed line, (hget n _).mpr ⟨line, hline, hn, rfl⟩, hst'⟩
  exact ⟨l, p, hload, hp, hpq ▸ hq, hnumbers⟩

/-- The programs of three lines, the last one with blanks at both ends. -/
def jumpOrRemark (line : String) : Program :=
  if line = "20 GOTO 10" then .single 20 (.goto 10)
  else if line = " 010 REM x\u00a0" then .single 10 (.remark "x")
  else .empty

theorem program_load_jumpOrRemark :
    (∀ line ∈ Text.lines "20 GOTO 10\r\n\n 010 REM x\u00a0",
      Program.ofSource line = .ok (jumpOrRemark line)) ∧
      (Program.numbersOf jumpOrRemark (Text.lines "20 GOTO 10\r\n\n 010 REM x\u00a0")).Nodup ∧
      ∃ l p, load "20 GOTO 10\r\n\n 010 REM x\u00a0" .empty = (.ok (), l) ∧ l.program = .ok p ∧
        Program.ofSource "20 GOTO 10\r\n\n 010 REM x\u00a0" = .ok p ∧
          l.lines.numbers = p.lineNumbers := by
  have hlines : Text.lines "20 GOTO 10\r\n\n 010 REM x\u00a0" =
      ["20 GOTO 10", "", " 010 REM x\u00a0"] := by with_unfolding_all rfl
  have hprogram : ∀ line ∈ Text.lines "20 GOTO 10\r\n\n 010 REM x\u00a0",
      Program.ofSource line = .ok (jumpOrRemark line) := by
    rw [hlines]
    simp only [List.forall_mem_cons]
    exact ⟨by with_unfolding_all rfl, by with_unfolding_all rfl, by with_unfolding_all rfl,
      List.forall_mem_nil _⟩
  have hnodup :
      (Program.numbersOf jumpOrRemark (Text.lines "20 GOTO 10\r\n\n 010 REM x\u00a0")).Nodup := by
    rw [hlines]
    decide
  exact ⟨hprogram, hnodup, program_load _ jumpOrRemark hprogram hnodup⟩

end Listing

end LineBasic
