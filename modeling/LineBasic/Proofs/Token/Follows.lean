import LineBasic.Proofs.Token.Pieces
import Mathlib.Data.List.Chain

/-!
# Tokens that follow one another

What the text of a token can be depends on the token before it only where that is `REM`: a string
behind it on the same line is a remark. Elsewhere numbers, names and strings have their own forms
(`Token.WellSpelled`). Lines only go on from one token to the next, and by as many as a string
takes. So any two tokens of a source that stand next to one another are related by `Token.Follows`
(`Token.isChain_scan`).
-/

namespace LineBasic

namespace Token

/-- The text of a token has the form that its kind asks for. -/
structure WellSpelled (t : Token) : Prop where
  number : t.kind = .number ∨ t.kind = .lineNumber → ∀ c ∈ t.text.toList, c.isDigit = true ∨ c = '.'
  name : t.kind = .name → Kind.name.Form t.text
  string : t.kind = .string → Kind.string.Form t.text

/-- What is known of a token from the one before it. -/
structure Follows (t u : Token) : Prop where
  /-- Lines only go on, also within a string. -/
  line_le : t.line + t.text.toList.count '\n' ≤ u.line
  wellSpelled : t.kind ≠ .keyword .REM → u.WellSpelled
  isRemark : t.kind = .keyword .REM → u.kind = .string → u.line = t.line → IsRemark u.text.toList

end Token

/-! ## Names and remarks -/

namespace Lexeme

theorem isWord_splitWord {c : Char} (cs : List Char) (h : isWordStart c = true) :
    IsWord (splitWord (c :: cs)).1 := by
  have hbody : ∀ d ∈ cs.takeWhile isWordChar, isWordChar d = true :=
    fun d hd => List.mem_takeWhile_imp hd
  unfold splitWord
  simp only [List.takeWhile_cons, isWordChar_of_isWordStart h, ↓reduceIte]
  split
  · exact ⟨c, _, h, hbody, .inr rfl⟩
  · exact ⟨c, _, h, hbody, .inl rfl⟩

theorem kind_symbol_ne_string (c : Char) (cs : List Char) : (symbol c cs).kind ≠ .string := by
  have hsymbol := (symbolKind_ne c).2.1
  unfold symbol
  split
  · split <;> simp [hsymbol]
  · exact hsymbol

/-- A name is a word and no keyword. -/
theorem form_of_name {lineStart : Bool} {c : Char} {cs : List Char}
    (h : (read lineStart c cs).kind = .name) :
    Kind.name.Form (String.ofList (read lineStart c cs).text) := by
  obtain ⟨hstart, hread⟩ := read_of_name h
  rw [hread] at h ⊢
  constructor
  · rw [String.toList_ofList]
    exact isWord_splitWord cs hstart
  · unfold word at h
    dsimp only at h
    split at h
    · cases h
    · assumption

/-- A string has no quote in it. -/
theorem form_of_string {lineStart : Bool} {c : Char} {cs : List Char}
    (h : (read lineStart c cs).kind = .string) :
    Kind.string.Form (String.ofList (read lineStart c cs).text) := by
  have hbody : '"' ∉ cs.takeWhile (· != '"') := by
    intro hmem
    simpa using List.mem_takeWhile_imp hmem
  show '"' ∉ (String.ofList (read lineStart c cs).text).toList
  rw [String.toList_ofList]
  unfold read at h ⊢
  split at h
  · unfold number at h
    dsimp only at h
    split at h <;> cases h
  · rename_i hnumber
    rw [if_neg hnumber]
    split at h
    · unfold word at h
      dsimp only at h
      split at h <;> cases h
    · rename_i hword
      rw [if_neg hword]
      split at h
      · rename_i hquote
        rw [if_pos hquote]
        unfold string at h ⊢
        dsimp only at h ⊢
        split at h
        · exact hbody
        · cases h
      · exact absurd h (kind_symbol_ne_string c cs)

theorem count_newline_text_le (lineStart : Bool) (c : Char) (cs : List Char) :
    (read lineStart c cs).text.count '\n' ≤ (read lineStart c cs).source.count '\n' := by
  have hl := spelling_read lineStart c cs
  generalize read lineStart c cs = l at hl
  by_cases hstring : l.kind = .string
  · rw [hl.string hstring]
    simp
  · by_cases hplain : l.kind = .illegal ∧ String.ofList l.text = Token.unterminated
    · have htext : l.text = Token.unterminated.toList := by rw [← hplain.2, String.toList_ofList]
      rw [htext]
      exact Nat.zero_le _
    · rw [hl.plain hstring fun hk ht => hplain ⟨hk, ht⟩]

end Lexeme

theorem Text.trimEnd_trimEnd (cs : List Char) : trimEnd (trimEnd cs) = trimEnd cs := by
  rw [trimEnd, trimEnd, List.reverse_reverse, List.dropWhile_idempotent]

namespace Scanner

variable {s : Scanner}

theorem isRemark_remarkText (h : s.remarkText ≠ []) : IsRemark s.remarkText := by
  obtain ⟨blanks, hline, _⟩ :=
    exists_trimEnd_append ((s.skipWhile isSpace).rest.takeWhile (· != '\n'))
  change _ = s.remarkText ++ blanks at hline
  refine ⟨h, ?_, ?_, Text.trimEnd_trimEnd _⟩
  · intro hmem
    have hmem' : '\n' ∈ (s.skipWhile isSpace).rest.takeWhile (· != '\n') := by
      rw [hline]
      exact List.mem_append_left _ hmem
    simpa using List.mem_takeWhile_imp hmem'
  · intro c hc
    obtain ⟨cs, hcs⟩ := List.head?_eq_some_iff.mp hc
    rw [hcs] at hline
    obtain ⟨ds, hds⟩ : ∃ ds, s.rest.dropWhile isSpace = c :: ds := by
      refine ⟨cs ++ blanks ++ (s.skipWhile isSpace).rest.dropWhile (· != '\n'), ?_⟩
      rw [← List.cons_append, ← List.cons_append, ← hline, List.takeWhile_append_dropWhile]
      rfl
    exact Lexeme.head_dropWhile hds

theorem wellSpelled_nextLexeme (s : Scanner) : s.nextLexeme.1.WellSpelled := by
  cases hrest : s.skipGap.rest with
  | nil =>
    rw [nextLexeme_of_nil hrest]
    constructor
    · intro h
      rcases h with h | h <;> cases h
    · intro h
      cases h
    · intro h
      cases h
  | cons c cs =>
    rw [nextLexeme_of_cons hrest]
    constructor
    · intro h d hd
      dsimp only at h hd
      rw [String.toList_ofList, (Lexeme.read_of_number h).2] at hd
      exact Lexeme.isDigit_or_point_of_splitNumber hd
    · exact Lexeme.form_of_name
    · exact Lexeme.form_of_string

/-! ## From one token to the next -/

theorem remark_nextLexeme (hremark : s.remark = false) :
    s.nextLexeme.2.remark = true ↔ s.nextLexeme.1.kind = .keyword .REM := by
  cases hrest : s.skipGap.rest with
  | nil =>
    rw [nextLexeme_of_nil hrest]
    show s.remark = true ↔ Kind.endOfInput = .keyword .REM
    simp [hremark]
  | cons c cs =>
    rw [nextLexeme_of_cons hrest]
    exact decide_eq_true_iff

/-- A scanner looks for a remark exactly behind `REM`. -/
theorem remark_next : s.next.2.remark = true ↔ s.next.1.kind = .keyword .REM := by
  cases htake : s.takeRemark.1 with
  | none =>
    rw [next_of_none htake]
    exact remark_nextLexeme s.remark_takeRemark
  | some t =>
    rw [next_of_some htake, s.remark_takeRemark, kind_of_takeRemark htake]
    simp

theorem line_le_nextLexeme (s : Scanner) : s.position.line ≤ s.nextLexeme.1.line ∧
    s.nextLexeme.1.line + s.nextLexeme.1.text.toList.count '\n' ≤ s.nextLexeme.2.position.line := by
  have hgap : s.position.line ≤ s.skipGap.position.line := by
    rw [skipGap_position, Position.line_after]
    exact Nat.le_add_right _ _
  cases hrest : s.skipGap.rest with
  | nil =>
    rw [nextLexeme_of_nil hrest]
    exact ⟨hgap, Nat.le_refl _⟩
  | cons c cs =>
    rw [nextLexeme_of_cons hrest]
    refine ⟨hgap, ?_⟩
    rw [Position.line_after, String.toList_ofList]
    exact Nat.add_le_add_left (Lexeme.count_newline_text_le _ c cs) _

theorem line_le_takeRemark (s : Scanner) : s.position.line ≤ s.takeRemark.2.position.line := by
  cases hremark : s.remark with
  | false => rw [takeRemark_of_not_remark hremark]
  | true =>
    obtain ⟨spaces, text, blanks, rest, hparts⟩ := exists_remarkParts hremark
    rw [hparts.takeRemark_eq, Position.line_after]
    exact Nat.le_add_right _ _

/-- The place of the next token lies ahead, and the scanner goes on behind it. -/
theorem line_le_next (s : Scanner) : s.position.line ≤ s.next.1.line ∧
    s.next.1.line + s.next.1.text.toList.count '\n' ≤ s.next.2.position.line := by
  cases htake : s.takeRemark.1 with
  | none =>
    rw [next_of_none htake]
    obtain ⟨hfirst, hlast⟩ := line_le_nextLexeme s.takeRemark.2
    exact ⟨(line_le_takeRemark s).trans hfirst, hlast⟩
  | some t =>
    rw [next_of_some htake]
    have hremark : s.remark = true := by
      by_contra hremark
      rw [takeRemark_of_not_remark (Bool.not_eq_true _ ▸ hremark)] at htake
      cases htake
    obtain ⟨spaces, text, blanks, rest, hparts⟩ := exists_remarkParts hremark
    rw [hparts.takeRemark_eq] at htake ⊢
    dsimp only at htake ⊢
    split at htake
    · cases htake
    · obtain rfl := Option.some.inj htake
      simp only [Token.line, Position.line_after, String.toList_ofList, List.count_append]
      omega

/-- Where no remark follows `REM`, the next token is the end or stands on a later line. -/
theorem line_lt_of_takeRemark (hremark : s.remark = true) (htake : s.takeRemark.1 = none)
    (hend : s.next.1.kind ≠ .endOfInput) : s.position.line < s.next.1.line := by
  obtain ⟨spaces, text, blanks, rest, hparts⟩ := exists_remarkParts hremark
  have hline : s.position.line ≤ s.takeRemark.2.position.line := line_le_takeRemark s
  rw [next_of_none htake] at hend ⊢
  generalize hs : s.takeRemark.2 = s' at hend hline ⊢
  have hrest : s'.rest = rest := by rw [← hs, hparts.takeRemark_eq]
  cases rest with
  | nil =>
    rw [nextLexeme_of_nil (by rw [skipGap_rest, hrest, List.dropWhile_nil])] at hend
    exact absurd rfl hend
  | cons c cs =>
    obtain rfl : c = '\n' := hparts.atLineEnd c rfl
    have hgap : s'.position.line < s'.skipGap.position.line := by
      rw [skipGap_position, Position.line_after, hrest]
      simp [isGap]
    cases hskip : s'.skipGap.rest with
    | nil =>
      rw [nextLexeme_of_nil hskip] at hend
      exact absurd rfl hend
    | cons d ds =>
      rw [nextLexeme_of_cons hskip]
      exact Nat.lt_of_le_of_lt hline hgap

/-- A string behind `REM` is a remark or stands on a later line. -/
theorem isRemark_of_next (hremark : s.remark = true) (hstring : s.next.1.kind = .string)
    (hline : s.next.1.line = s.position.line) : IsRemark s.next.1.text.toList := by
  have htake := takeRemark_of_remark hremark
  by_cases hempty : s.remarkText.isEmpty = true
  · rw [if_pos hempty] at htake
    have hlt :=
      line_lt_of_takeRemark hremark (by rw [htake]) (by rw [hstring]; exact Kind.noConfusion)
    exact absurd hline hlt.ne'
  · rw [if_neg hempty] at htake
    rw [next_of_some (by rw [htake]), String.toList_ofList]
    exact isRemark_remarkText fun hnil => hempty (by rw [hnil]; rfl)

/-- Behind every token but the last there is one that follows it. -/
theorem follows_next (s : Scanner) : s.next.1.Follows s.next.2.next.1 where
  line_le := (line_le_next s).2.trans (line_le_next s.next.2).1
  wellSpelled hrem := by
    have hremark : s.next.2.remark = false := by
      rw [← Bool.not_eq_true, remark_next]
      exact hrem
    rw [next_of_not_remark hremark]
    exact wellSpelled_nextLexeme _
  isRemark hrem hstring hline := by
    apply isRemark_of_next (remark_next.mpr hrem) hstring
    have hfirst := (line_le_next s.next.2).1
    have hlast := (line_le_next s).2
    omega

theorem isChain_tokens (s : Scanner) : s.tokens.IsChain Token.Follows := by
  by_cases hend : s.next.1.kind = .endOfInput
  · rw [tokens_of_end rfl hend]
    exact List.isChain_singleton _
  · have hrest := isChain_tokens s.next.2
    rw [tokens_of_ne_end hend]
    by_cases hnext : s.next.2.next.1.kind = .endOfInput
    · rw [tokens_of_end rfl hnext] at hrest ⊢
      exact List.isChain_cons_cons.mpr ⟨follows_next s, hrest⟩
    · rw [tokens_of_ne_end hnext] at hrest ⊢
      exact List.isChain_cons_cons.mpr ⟨follows_next s, hrest⟩
termination_by s.rest.length
decreasing_by exact length_next_lt (by simpa [Token.isEnd] using hend)

end Scanner

/-- The tokens of a source follow one another. -/
theorem Token.isChain_scan (source : String) : (scan source).IsChain Follows :=
  Scanner.isChain_tokens _

end LineBasic
