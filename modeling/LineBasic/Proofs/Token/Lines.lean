import LineBasic.Proofs.Token.Newline
import LineBasic.Text.Lines

/-!
# The tokens of lines

`Token.body` are the tokens of a text before the end token. On a text of one line they stand on line
one, and only the first one can be a line number. Nothing that the scanner remembers lives through a
newline that is not inside a string: what stands behind it is scanned like a text of its own
(`Token.scan_append_newline`). So the tokens of lines that are put together are those of each line,
on its own line (`Token.scan_joinLines`).
-/

namespace LineBasic

namespace Token

theorem Layout.line_le {before : Preceding} {front source : List Char} {ts : List Token}
    (h : Layout before front source ts) :
    ∀ t ∈ ts, 1 ≤ t.line ∧ t.line ≤ 1 + (front ++ source).count '\n' := by
  induction h with
  | @done before front gap hgap =>
    intro t ht
    obtain rfl := List.mem_singleton.mp ht
    exact ⟨Nat.le_add_right 1 _, Nat.le_refl _⟩
  | @token before front gap lexeme rest t ts hgap hend hposition hspelled hrest ih =>
    intro u hu
    rcases List.mem_cons.mp hu with rfl | hu
    · have hline : u.line = 1 + (front ++ gap).count '\n' := congrArg Position.line hposition
      simp only [List.count_append] at hline ⊢
      omega
    · have hle := ih u hu
      simpa only [List.append_assoc] using hle

/-- The tokens of a text without the end token. -/
def body (source : String) : List Token :=
  (scan source).dropLast

theorem exists_scan_eq (source : String) :
    scan source = body source ++ [.endAt (.behind source.toList)] ∧
      ∀ t ∈ body source, t.kind ≠ .endOfInput := by
  obtain ⟨ts, hts, hend⟩ := (Scanner.reflects_ofString source).layout.exists_concat
  have hscan : scan source = ts ++ [.endAt (.behind source.toList)] := hts
  have hbody : body source = ts := by rw [body, hscan, List.dropLast_concat]
  rw [hbody]
  exact ⟨hscan, hend⟩

theorem mem_scan_of_mem_body {source : String} {t : Token} (h : t ∈ body source) :
    t ∈ scan source :=
  List.dropLast_subset _ h

/-- On a text of one line every token stands on line one. -/
theorem line_of_mem_body {source : String} (h : '\n' ∉ source.toList) {t : Token}
    (ht : t ∈ body source) : t.line = 1 := by
  have hle := (Scanner.reflects_ofString source).layout.line_le t (mem_scan_of_mem_body ht)
  rw [List.nil_append, List.count_eq_zero.mpr h] at hle
  omega

end Token

namespace Lexeme

theorem kind_read_ne_lineNumber (c : Char) (cs : List Char) :
    (read false c cs).kind ≠ .lineNumber := by
  unfold read
  split
  · simp [number]
  · split
    · unfold word
      dsimp only
      split <;> simp
    · split
      · unfold string
        dsimp only
        split <;> simp
      · have hsymbol : symbolKind c ≠ .lineNumber := by
          unfold symbolKind
          split <;> simp
        unfold symbol
        split
        · split <;> simp [hsymbol]
        · exact hsymbol

end Lexeme

namespace Scanner

/-- A scanner inside the last line of the source. -/
structure InLastLine (s : Scanner) : Prop where
  lineStart : s.lineStart = false
  newline : '\n' ∉ s.rest

theorem InLastLine.takeRemark {s : Scanner} (h : s.InLastLine) : s.takeRemark.2.InLastLine := by
  refine ⟨?_, fun hmem => h.newline (mem_of_mem_takeRemark hmem)⟩
  cases hremark : s.remark with
  | false =>
    rw [takeRemark_of_not_remark hremark]
    exact h.lineStart
  | true =>
    rw [takeRemark_of_remark hremark]
    exact h.lineStart

theorem InLastLine.nextLexeme {s : Scanner} (h : s.InLastLine) :
    s.nextLexeme.1.kind ≠ .lineNumber ∧ s.nextLexeme.2.InLastLine := by
  have hstart : s.skipGap.lineStart = false := by
    have hnot : '\n' ∉ s.rest.takeWhile isGap :=
      fun hmem => h.newline ((List.takeWhile_prefix isGap).subset hmem)
    simp [skipGap, h.lineStart, hnot]
  have hnewline : '\n' ∉ s.nextLexeme.2.rest := fun hmem => h.newline (mem_of_mem_nextLexeme hmem)
  cases hrest : s.skipGap.rest with
  | nil =>
    rw [nextLexeme_of_nil hrest] at hnewline ⊢
    exact ⟨Kind.noConfusion, hstart, hnewline⟩
  | cons c cs =>
    rw [nextLexeme_of_cons hrest] at hnewline ⊢
    rw [hstart] at hnewline ⊢
    exact ⟨Lexeme.kind_read_ne_lineNumber c cs, rfl, hnewline⟩

theorem InLastLine.next {s : Scanner} (h : s.InLastLine) :
    s.next.1.kind ≠ .lineNumber ∧ s.next.2.InLastLine := by
  cases hremark : s.takeRemark.1 with
  | none =>
    rw [next_of_none hremark]
    exact h.takeRemark.nextLexeme
  | some t =>
    rw [next_of_some hremark]
    exact ⟨by simp [kind_of_takeRemark hremark], h.takeRemark⟩

theorem InLastLine.tokens {s : Scanner} (h : s.InLastLine) :
    ∀ t ∈ s.tokens, t.kind ≠ .lineNumber := by
  intro t ht
  by_cases hend : s.next.1.kind = .endOfInput
  · rw [tokens_of_end rfl hend] at ht
    obtain rfl := List.mem_singleton.mp ht
    exact h.next.1
  · rw [tokens_of_ne_end hend] at ht
    rcases List.mem_cons.mp ht with rfl | ht
    · exact h.next.1
    · exact InLastLine.tokens h.next.2 t ht
termination_by s.rest.length
decreasing_by exact length_next_lt (by simpa [Token.isEnd] using hend)

end Scanner

theorem Text.joinLines_singleton (l : String) : joinLines [l] = l := by
  apply String.toList_inj.mp
  simp [joinLines]

namespace Token

/-- On a text of one line only the first token can be a line number. -/
theorem kind_ne_lineNumber_of_mem_tail {source : String} (h : '\n' ∉ source.toList) {t : Token}
    (ht : t ∈ (body source).tail) : t.kind ≠ .lineNumber := by
  have hnext : (Scanner.ofString source).next = (Scanner.ofString source).nextLexeme :=
    Scanner.next_of_not_remark rfl
  have hscan : scan source = (Scanner.ofString source).tokens := rfl
  by_cases hend : (Scanner.ofString source).next.1.kind = .endOfInput
  · rw [body, hscan, Scanner.tokens_of_end rfl hend] at ht
    cases ht
  · have hlast : (Scanner.ofString source).next.2.InLastLine := by
      rw [hnext] at hend ⊢
      refine ⟨?_, fun hmem => h (Scanner.mem_of_mem_nextLexeme hmem)⟩
      cases hrest : (Scanner.ofString source).skipGap.rest with
      | nil =>
        rw [Scanner.nextLexeme_of_nil hrest] at hend
        exact absurd rfl hend
      | cons c cs => rw [Scanner.nextLexeme_of_cons hrest]
    have htail : t ∈ (scan source).tail := by
      rw [body, List.tail_dropLast] at ht
      exact List.dropLast_subset _ ht
    rw [hscan, Scanner.tokens_of_ne_end hend] at htail
    exact hlast.tokens t htail

/-- The tokens of lines one below the other. -/
def ofLines : List String → List Token
  | [] => []
  | l :: ls => body l ++ (ofLines ls).map (move (.down 1))

theorem toList_joinLines_cons (l l' : String) (ls : List String) :
    (Text.joinLines (l :: l' :: ls)).toList =
      l.toList ++ '\n' :: (Text.joinLines (l' :: ls)).toList := by
  simp [Text.joinLines, String.toList_intercalate, List.intercalate]

/-- The tokens of a text with a newline and more text behind it. -/
theorem scan_of_toList {source first rest : String}
    (hsource : source.toList = first.toList ++ '\n' :: rest.toList)
    (hfirst : ∀ t ∈ scan first, ¬ t.IsUnterminated) :
    scan source =
      body first ++ (scan rest).map (move (.down (Position.behind first.toList).line)) := by
  obtain ⟨ts, position, hts, hrest⟩ := (Scanner.ofString first).tokens_followedBy rest.toList hfirst
  obtain ⟨hscan, _⟩ := exists_scan_eq first
  have heq : ts ++ [endAt position] = body first ++ [endAt (.behind first.toList)] :=
    hts.symm.trans hscan
  obtain ⟨rfl, hposition⟩ := List.append_inj' heq rfl
  obtain rfl : position = .behind first.toList :=
    congrArg Token.position (List.cons.inj hposition).1
  have hfollowed : Scanner.ofString source =
      (Scanner.ofString first).followedBy ('\n' :: rest.toList) := by
    simp [Scanner.ofString, Scanner.followedBy, hsource]
  rw [scan, hfollowed, hrest]
  rfl

/-- Unless a string is open at the end of a text, the tokens of the text with a newline and another
text behind it are its own, but for the end token, and those of the other text further down. -/
theorem scan_append_newline {a : String} (ha : ∀ t ∈ scan a, ¬ t.IsUnterminated) (b : String) :
    ∃ ts position, scan a = ts ++ [endAt position] ∧
      scan (a ++ "\n" ++ b) = ts ++ (scan b).map (move (.down (a.toList.count '\n' + 1))) := by
  have hsource : (a ++ "\n" ++ b).toList = a.toList ++ '\n' :: b.toList := by simp
  have hline : (Position.behind a.toList).line = a.toList.count '\n' + 1 := Nat.add_comm _ _
  refine ⟨body a, _, (exists_scan_eq a).1, ?_⟩
  rw [scan_of_toList hsource ha, hline]

/-- A text with a newline inside a string, a character that is no token, and a remark at its end. -/
def bareRemark : String := "10 PRINT \"A\n\" < 1 .\n20 REM"

theorem scan_bareRemark :
    scan bareRemark =
      [⟨.lineNumber, "10", ⟨1, 1⟩⟩, ⟨.keyword .PRINT, "PRINT", ⟨1, 4⟩⟩, ⟨.string, "A\n", ⟨1, 10⟩⟩,
        ⟨.operator .less, "<", ⟨2, 3⟩⟩, ⟨.number, "1", ⟨2, 5⟩⟩, ⟨.illegal, ".", ⟨2, 7⟩⟩,
          ⟨.lineNumber, "20", ⟨3, 1⟩⟩,
        ⟨.keyword .REM, "REM", ⟨3, 4⟩⟩, endAt ⟨3, 7⟩] := by
  with_unfolding_all rfl

theorem scan_append_newline_bareRemark :
    (∀ t ∈ scan bareRemark, ¬ t.IsUnterminated) ∧
      scan (bareRemark ++ "\n" ++ "30 END") =
        (scan bareRemark).dropLast ++
          [⟨.lineNumber, "30", ⟨4, 1⟩⟩, ⟨.keyword .END, "END", ⟨4, 4⟩⟩, endAt ⟨4, 7⟩] := by
  have hclosed : ∀ t ∈ scan bareRemark, ¬ t.IsUnterminated := by
    rw [scan_bareRemark]
    unfold IsUnterminated
    decide
  obtain ⟨ts, position, hscan, hboth⟩ := scan_append_newline hclosed "30 END"
  have hother : scan "30 END" =
      [⟨.lineNumber, "30", ⟨1, 1⟩⟩, ⟨.keyword .END, "END", ⟨1, 4⟩⟩, endAt ⟨1, 7⟩] := by
        with_unfolding_all rfl
  have hcount : bareRemark.toList.count '\n' = 2 := by decide +kernel
  refine ⟨hclosed, ?_⟩
  rw [hboth, hscan, List.dropLast_concat, hother, hcount]
  rfl

/-- The tokens of lines that are put together. -/
theorem scan_joinLines (lines : List String)
    (h : ∀ l ∈ lines, '\n' ∉ l.toList ∧ ∀ t ∈ scan l, ¬ t.IsUnterminated) :
    ∃ position, scan (Text.joinLines lines) = ofLines lines ++ [endAt position] := by
  induction lines with
  | nil =>
    have hfinished : (Scanner.ofString "").Finished .start := ⟨rfl, rfl, rfl⟩
    exact ⟨.start, Scanner.tokens_of_end hfinished.next.1 rfl⟩
  | cons l ls ih =>
    obtain ⟨hl, hls⟩ := List.forall_mem_cons.mp h
    obtain ⟨position, hposition⟩ := ih hls
    cases ls with
    | nil =>
      rw [Text.joinLines_singleton, (exists_scan_eq l).1, ofLines, ofLines, List.map_nil,
        List.append_nil]
      exact ⟨_, rfl⟩
    | cons l' ls =>
      have hline : (Position.behind l.toList).line = 1 := by
        simp [Position.behind, List.count_eq_zero.mpr hl.1]
      rw [scan_of_toList (toList_joinLines_cons l l' ls) hl.2, hposition, hline]
      exact ⟨position.down 1, by simp [ofLines, move, endAt]⟩

end Token

end LineBasic
