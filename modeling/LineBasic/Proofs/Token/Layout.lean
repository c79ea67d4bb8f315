import LineBasic.Proofs.Token.Lexeme

/-!
# How tokens lie in the source

`Token.Layout` says that a source text is made up of the spellings of its tokens with gaps between
them, and that every token has the place of its spelling. A string is spelled in quotes, a remark as
it is, and a string without a closing quote takes all the rest of the source. A gap consists of
spaces and line ends; only behind `REM` and behind a remark may other blanks stand, up to the end of
that line. The tokens of every source lie in it this way (`Token.scan_layout`).
-/

namespace LineBasic

/-- What stands before a gap: the keyword `REM` on some line, a remark, or something else. -/
inductive Preceding where
  | other
  | rem (line : Nat)
  | remark
  deriving DecidableEq

namespace Preceding

/-- What stands before the gap behind a token. A string behind `REM` on the same line is a
remark. -/
def after (before : Preceding) (t : Token) : Preceding :=
  if t.kind = .keyword .REM then .rem t.line
  else if t.kind = .string ∧ before = .rem t.line then .remark
  else .other

end Preceding

/-- A text is at the end of its line. -/
def AtLineEnd (cs : List Char) : Prop :=
  ∀ c, cs.head? = some c → c = '\n'

/-- A text consists of blanks within a line. -/
def BlankInLine (cs : List Char) : Prop :=
  ∀ c ∈ cs, Text.isBlank c = true ∧ c ≠ '\n'

theorem BlankInLine.newline_not_mem {cs : List Char} (h : BlankInLine cs) : '\n' ∉ cs :=
  fun hmem => (h _ hmem).2 rfl

theorem BlankInLine.line_after {cs : List Char} (h : BlankInLine cs) (p : Position) :
    (p.after cs).line = p.line := by
  rw [Position.line_after, List.count_eq_zero.mpr h.newline_not_mem, Nat.add_zero]

/-- What can stand between a token and the rest of the source from the next one on. -/
def IsGapBetween (before : Preceding) (gap rest : List Char) : Prop :=
  (∀ c ∈ gap, isGap c = true) ∨
    before ≠ .other ∧ ∃ blanks spaces, gap = blanks ++ spaces ∧ BlankInLine blanks ∧
      (∀ c ∈ spaces, isGap c = true) ∧ AtLineEnd (spaces ++ rest)

namespace Token

/-- How a token is spelled in the source. -/
def IsSpelled (t : Token) (before : Preceding) (lexeme rest : List Char) : Prop :=
  if t.kind = .string then
    lexeme = if before.after t = .remark then t.text.toList else '"' :: t.text.toList ++ ['"']
  else if t.kind = .illegal ∧ t.text = unterminated then (∃ cs, lexeme = '"' :: cs) ∧ rest = []
  else lexeme = t.text.toList

/-- A source text, behind another text, is made up of the spellings of tokens with gaps between
them, and the tokens have the places of their spellings. -/
inductive Layout : Preceding → List Char → List Char → List Token → Prop
  | done {before : Preceding} {front gap : List Char} (hgap : IsGapBetween before gap []) :
      Layout before front gap [endAt (.behind (front ++ gap))]
  | token {before : Preceding} {front gap lexeme rest : List Char} {t : Token} {ts : List Token}
      (hgap : IsGapBetween before gap (lexeme ++ rest)) (hend : t.kind ≠ .endOfInput)
      (hposition : t.position = .behind (front ++ gap)) (hspelled : t.IsSpelled before lexeme rest)
      (hrest : Layout (before.after t) (front ++ gap ++ lexeme) rest ts) :
      Layout before front (gap ++ (lexeme ++ rest)) (t :: ts)

/-- A layout has the end token at the end of the source, and nowhere else. -/
theorem Layout.exists_concat {before : Preceding} {front source : List Char} {ts : List Token}
    (h : Layout before front source ts) :
    ∃ us, ts = us ++ [endAt (.behind (front ++ source))] ∧ ∀ t ∈ us, t.kind ≠ .endOfInput := by
  induction h with
  | done hgap => exact ⟨[], rfl, by simp⟩
  | @token before front gap lexeme rest t ts hgap hend hposition hspelled hrest ih =>
    obtain ⟨us, rfl, hus⟩ := ih
    refine ⟨t :: us, ?_, ?_⟩
    · simp only [List.append_assoc, List.cons_append]
    · intro u hu
      rcases List.mem_cons.mp hu with rfl | hu
      · exact hend
      · exact hus u hu

end Token

namespace Scanner

theorem isBlank_of_isSpace {c : Char} (h : isSpace c = true) :
    Text.isBlank c = true ∧ c ≠ '\n' := by
  simp only [isSpace, Bool.or_eq_true, beq_iff_eq] at h
  rcases h with (rfl | rfl) | rfl <;> decide

theorem atLineEnd_dropWhile (cs : List Char) : AtLineEnd (cs.dropWhile (· != '\n')) := by
  intro c hc
  cases h : cs.dropWhile (· != '\n') with
  | nil => simp [h] at hc
  | cons d ds =>
    have hd := Lexeme.head_dropWhile h
    rw [h] at hc
    obtain rfl := Option.some.inj hc
    simpa using hd

/-- A scanner that is about to read a token which is no remark. What lies between the token before
and the rest are blanks up to the end of the line behind `REM` or a remark, and nothing
elsewhere. -/
structure Ready (s : Scanner) (before : Preceding) (front source : List Char) : Prop where
  exists_blanks : ∃ blanks, source = blanks ++ s.rest ∧ s.position = .behind (front ++ blanks) ∧
    BlankInLine blanks ∧ (blanks = [] ∨ before ≠ .other ∧ AtLineEnd s.rest)
  atLineEnd : ∀ line, before = .rem line → s.position.line = line ∧ AtLineEnd s.rest

/-- A scanner that stands behind the tokens in a text, with a source ahead. Behind a remark it has
passed the blanks up to the end of the line already. -/
structure Reflects (s : Scanner) (before : Preceding) (front source : List Char) : Prop where
  of_remark : s.remark = true →
    before = .rem s.position.line ∧ s.rest = source ∧ s.position = .behind front
  of_not_remark : s.remark = false → (∀ line, before ≠ .rem line) ∧ s.Ready before front source

/-- The step from a text with a source ahead over a token, which leaves a scanner behind. -/
def StepsOver (before : Preceding) (front source : List Char) (t : Token) (s : Scanner) : Prop :=
  ∃ gap lexeme rest, source = gap ++ (lexeme ++ rest) ∧ IsGapBetween before gap (lexeme ++ rest) ∧
    t.kind ≠ .endOfInput ∧ t.position = .behind (front ++ gap) ∧ t.IsSpelled before lexeme rest ∧
    s.Reflects (before.after t) (front ++ gap ++ lexeme) rest

theorem reflects_ofString (source : String) :
    (ofString source).Reflects .other [] source.toList where
  of_remark h := nomatch h
  of_not_remark _ :=
    ⟨fun _ => Preceding.noConfusion,
      { exists_blanks := ⟨[], rfl, rfl, by simp [BlankInLine], .inl rfl⟩
        atLineEnd := fun _ h => nomatch h }⟩

theorem skipGap_rest (s : Scanner) : s.skipGap.rest = s.rest.dropWhile isGap := rfl

theorem skipGap_position (s : Scanner) :
    s.skipGap.position = s.position.after (s.rest.takeWhile isGap) := rfl

namespace Ready

variable {s : Scanner} {before : Preceding} {front source : List Char}

/-- The gap that ends where the next token begins. -/
theorem exists_gap (h : s.Ready before front source) :
    ∃ gap, source = gap ++ s.skipGap.rest ∧ IsGapBetween before gap s.skipGap.rest ∧
      s.skipGap.position = .behind (front ++ gap) := by
  obtain ⟨blanks, hsource, hposition, hblank, hblanks⟩ := h.exists_blanks
  have hsplit : s.rest.takeWhile isGap ++ s.skipGap.rest = s.rest := List.takeWhile_append_dropWhile
  refine ⟨blanks ++ s.rest.takeWhile isGap, ?_, ?_, ?_⟩
  · rw [List.append_assoc, hsplit, hsource]
  · rcases hblanks with rfl | ⟨hbefore, hend⟩
    · exact .inl fun c hc => List.mem_takeWhile_imp hc
    · refine .inr ⟨hbefore, blanks, s.rest.takeWhile isGap, rfl, hblank, ?_, ?_⟩
      · exact fun c hc => List.mem_takeWhile_imp hc
      · rw [hsplit]
        exact hend
  · rw [skipGap_position, hposition, ← Position.behind_append, List.append_assoc]

/-- Behind a bare `REM` the next token stands on a later line. -/
theorem line_ne (h : s.Ready before front source) (hrest : s.skipGap.rest ≠ []) :
    before ≠ .rem s.skipGap.position.line := by
  intro hbefore
  obtain ⟨hline, hend⟩ := h.atLineEnd _ hbefore
  cases hs : s.rest with
  | nil => exact hrest (by rw [skipGap_rest, hs, List.dropWhile_nil])
  | cons c cs =>
    obtain rfl : c = '\n' := hend c (by rw [hs, List.head?_cons])
    rw [skipGap_position, Position.line_after, hs] at hline
    simp [isGap] at hline

end Ready

/-- The token and the scanner behind it, where a lexeme comes next. -/
theorem nextLexeme_of_cons {s : Scanner} {c : Char} {cs : List Char}
    (h : s.skipGap.rest = c :: cs) :
    s.nextLexeme =
      (⟨(Lexeme.read s.skipGap.lineStart c cs).kind,
        String.ofList (Lexeme.read s.skipGap.lineStart c cs).text,
          s.skipGap.position⟩,
        { rest := (Lexeme.read s.skipGap.lineStart c cs).rest
          position := s.skipGap.position.after (Lexeme.read s.skipGap.lineStart c cs).source
          lineStart := false
          remark := (Lexeme.read s.skipGap.lineStart c cs).kind = .keyword .REM }) := by
  unfold nextLexeme
  dsimp only
  rw [h]

theorem nextLexeme_of_nil {s : Scanner} (h : s.skipGap.rest = []) :
    s.nextLexeme = (.endAt s.skipGap.position, s.skipGap) := by
  unfold nextLexeme
  dsimp only
  rw [h]

namespace Ready

variable {s : Scanner} {before : Preceding} {front source : List Char}

/-- A lexeme spells its token, unless a remark was due. -/
theorem isSpelled {l : Lexeme} {position : Position} (hl : l.Spelling)
    (hbefore : before ≠ .rem position.line) :
    (⟨l.kind, String.ofList l.text, position⟩ : Token).IsSpelled before l.source l.rest := by
  unfold Token.IsSpelled
  dsimp only
  split
  · rename_i hstring
    have hnot : before.after ⟨l.kind, String.ofList l.text, position⟩ ≠ .remark := by
      simp [Preceding.after, hstring, Token.line, hbefore]
    rw [if_neg hnot, hl.string hstring, String.toList_ofList]
  · rename_i hstring
    split
    · rename_i hillegal
      obtain ⟨hrest, hsource⟩ := hl.unterminated hillegal.1 hillegal.2
      exact ⟨hsource, hrest⟩
    · rename_i hillegal
      rw [hl.plain hstring fun hk ht => hillegal ⟨hk, ht⟩, String.toList_ofList]

theorem stepsOver_nextLexeme (h : s.Ready before front source) {c : Char} {cs : List Char}
    (hrest : s.skipGap.rest = c :: cs) :
    StepsOver before front source s.nextLexeme.1 s.nextLexeme.2 := by
  obtain ⟨gap, hsource, hgap, hposition⟩ := h.exists_gap
  have hbefore := h.line_ne (hrest ▸ List.cons_ne_nil c cs)
  have hl := Lexeme.spelling_read s.skipGap.lineStart c cs
  have happend := Lexeme.source_append_rest s.skipGap.lineStart c cs
  rw [nextLexeme_of_cons hrest]
  generalize Lexeme.read s.skipGap.lineStart c cs = l at hl happend
  refine ⟨gap, l.source, l.rest, ?_, ?_, hl.kind_ne_end, hposition, isSpelled hl hbefore, ?_, ?_⟩
  · rw [happend, hsource, hrest]
  · rw [happend, ← hrest]
    exact hgap
  -- Behind `REM` the scanner is on the line of that word, since the word has no newline.
  · intro hremark
    have hrem : l.kind = .keyword .REM := by simpa using hremark
    refine ⟨?_, rfl, ?_⟩
    · simp [Preceding.after, hrem, Token.line, Position.line_after,
        List.count_eq_zero.mpr (hl.rem hrem)]
    · rw [Position.behind_append, hposition]
  · intro hremark
    have hrem : l.kind ≠ .keyword .REM := by simpa using hremark
    have hafter : ∀ line, before.after ⟨l.kind, String.ofList l.text, s.skipGap.position⟩ ≠
        .rem line := by
      intro line
      unfold Preceding.after
      split
      · contradiction
      · split <;> simp
    refine ⟨hafter, ⟨[], rfl, ?_, by simp [BlankInLine], .inl rfl⟩, fun line hline =>
      absurd hline (hafter line)⟩
    rw [List.append_nil, Position.behind_append, hposition]

end Ready

theorem takeRemark_of_not_remark {s : Scanner} (h : s.remark = false) :
    s.takeRemark = (none, s) := by
  rw [takeRemark, h]
  rfl

/-- The text of a remark that comes next. -/
def remarkText (s : Scanner) : List Char :=
  Text.trimEnd ((s.skipWhile isSpace).rest.takeWhile (· != '\n'))

theorem takeRemark_of_remark {s : Scanner} (h : s.remark = true) :
    s.takeRemark =
      (if s.remarkText.isEmpty then none
        else some ⟨.string, String.ofList s.remarkText, (s.skipWhile isSpace).position⟩,
        { (s.skipWhile isSpace).skipWhile (· != '\n') with remark := false }) := by
  rw [takeRemark, if_pos h]
  unfold remarkText
  dsimp only
  split <;> rfl

/-- The blanks that a text loses at its end. -/
theorem exists_trimEnd_append (cs : List Char) :
    ∃ blanks, cs = Text.trimEnd cs ++ blanks ∧ ∀ c ∈ blanks, Text.isBlank c = true := by
  refine ⟨(cs.reverse.takeWhile Text.isBlank).reverse, ?_, ?_⟩
  · have hsplit : cs.reverse.takeWhile Text.isBlank ++ cs.reverse.dropWhile Text.isBlank =
        cs.reverse :=
      List.takeWhile_append_dropWhile
    rw [Text.trimEnd, ← List.reverse_append, hsplit, List.reverse_reverse]
  · intro c hc
    exact List.mem_takeWhile_imp (List.mem_reverse.mp hc)

/-- The parts of a line behind `REM`: spaces, the text of the remark, blanks, and the rest of the
source. -/
structure RemarkParts (s : Scanner) (spaces text blanks rest : List Char) : Prop where
  rest_eq : s.rest = spaces ++ (text ++ (blanks ++ rest))
  isSpace : ∀ c ∈ spaces, isSpace c = true
  blankInLine : BlankInLine blanks
  atLineEnd : AtLineEnd rest
  takeRemark_eq : s.takeRemark =
    (if text.isEmpty then none else some ⟨.string, String.ofList text, s.position.after spaces⟩,
      ⟨rest, s.position.after (spaces ++ (text ++ blanks)), s.lineStart, false⟩)

theorem exists_remarkParts {s : Scanner} (hremark : s.remark = true) :
    ∃ spaces text blanks rest, s.RemarkParts spaces text blanks rest := by
  obtain ⟨blanks, hline, hblanks⟩ :=
    exists_trimEnd_append ((s.rest.dropWhile isSpace).takeWhile (· != '\n'))
  have hnewline : '\n' ∉ (s.rest.dropWhile isSpace).takeWhile (· != '\n') := by
    intro h
    simpa using List.mem_takeWhile_imp h
  have hrest : s.rest = s.rest.takeWhile isSpace ++
      ((s.rest.dropWhile isSpace).takeWhile (· != '\n') ++
      (s.rest.dropWhile isSpace).dropWhile (· != '\n')) := by
    rw [List.takeWhile_append_dropWhile, List.takeWhile_append_dropWhile]
  refine ⟨s.rest.takeWhile isSpace,
    Text.trimEnd ((s.rest.dropWhile isSpace).takeWhile (· != '\n')), blanks,
    (s.rest.dropWhile isSpace).dropWhile (· != '\n'), ?_, ?_, ?_, ?_, ?_⟩
  · rw [← List.append_assoc (Text.trimEnd _), ← hline]
    exact hrest
  · exact fun c hc => List.mem_takeWhile_imp hc
  · intro c hc
    refine ⟨hblanks c hc, ?_⟩
    rintro rfl
    exact hnewline (hline ▸ List.mem_append_right _ hc)
  · exact atLineEnd_dropWhile _
  · rw [← hline, Position.after_append]
    exact takeRemark_of_remark hremark

namespace RemarkParts

variable {s : Scanner} {before : Preceding} {front source spaces text blanks rest : List Char}

theorem blankInLine_spaces (h : s.RemarkParts spaces text blanks rest) : BlankInLine spaces :=
  fun c hc => isBlank_of_isSpace (h.isSpace c hc)

theorem line_after_spaces (h : s.RemarkParts spaces text blanks rest) (p : Position) :
    (p.after spaces).line = p.line :=
  h.blankInLine_spaces.line_after p

/-- A remark is a token over which the scanner steps. -/
theorem stepsOver (h : s.RemarkParts spaces text blanks rest) (hremark : s.remark = true)
    (hs : s.Reflects before front source) :
    StepsOver before front source ⟨.string, String.ofList text, s.position.after spaces⟩
      s.takeRemark.2 := by
  obtain ⟨hbefore, hrest, hposition⟩ := hs.of_remark hremark
  have hafter : before.after ⟨.string, String.ofList text, s.position.after spaces⟩ = .remark := by
    simp [Preceding.after, Token.line, h.line_after_spaces, hbefore]
  refine ⟨spaces, text, blanks ++ rest, ?_, ?_, by simp, ?_, ?_, ?_, ?_⟩
  · rw [← hrest, h.rest_eq]
  · refine .inl fun c hc => ?_
    rw [isGap, h.isSpace c hc, Bool.true_or]
  · rw [Position.behind_append, hposition]
  · rw [Token.IsSpelled, if_pos rfl, if_pos hafter, String.toList_ofList]
  · rw [h.takeRemark_eq]
    exact fun hremark => Bool.noConfusion hremark
  · intro _
    rw [hafter, h.takeRemark_eq]
    refine ⟨fun _ => Preceding.noConfusion,
      ⟨blanks, rfl, ?_, h.blankInLine, .inr ⟨Preceding.noConfusion, h.atLineEnd⟩⟩,
      fun _ => Preceding.noConfusion⟩
    simp only [Position.behind_append, Position.after_append, hposition]

/-- Without a remark the scanner has passed blanks only, to the end of the line. -/
theorem ready (h : s.RemarkParts spaces [] blanks rest) (hremark : s.remark = true)
    (hs : s.Reflects before front source) : s.takeRemark.2.Ready before front source := by
  obtain ⟨hbefore, hrest, hposition⟩ := hs.of_remark hremark
  have hblank : BlankInLine (spaces ++ blanks) := by
    intro c hc
    rcases List.mem_append.mp hc with hc | hc
    · exact h.blankInLine_spaces c hc
    · exact h.blankInLine c hc
  rw [h.takeRemark_eq]
  constructor
  · refine ⟨spaces ++ blanks, ?_, ?_, hblank, .inr ⟨by simp [hbefore], h.atLineEnd⟩⟩
    · rw [← hrest, h.rest_eq, List.append_assoc, List.nil_append]
    · rw [List.nil_append, hposition, Position.behind_append front]
  · intro line hline
    refine ⟨?_, h.atLineEnd⟩
    rw [List.nil_append, hblank.line_after]
    exact Preceding.rem.inj (hbefore.symm.trans hline)

end RemarkParts

/-- The token of the call with this index, if a scanner is called again and again. -/
def nth (s : Scanner) : Nat → Token
  | 0 => s.next.1
  | n + 1 => s.next.2.nth n

/-- A scanner that has come to the end of the source, at a place. -/
structure Finished (s : Scanner) (position : Position) : Prop where
  rest_eq : s.rest = []
  remark_eq : s.remark = false
  position_eq : s.position = position

theorem Finished.next {s : Scanner} {position : Position} (h : s.Finished position) :
    s.next.1 = .endAt position ∧ s.next.2.Finished position := by
  have htake := takeRemark_of_not_remark h.remark_eq
  have hgap : s.skipGap.rest = [] := by rw [skipGap_rest, h.rest_eq, List.dropWhile_nil]
  have hposition : s.skipGap.position = position := by
    rw [skipGap_position, h.rest_eq, List.takeWhile_nil, Position.after_nil, h.position_eq]
  simp only [Scanner.next, htake, nextLexeme_of_nil hgap, hposition]
  exact ⟨trivial, hgap, h.remark_eq, hposition⟩

/-- Once the end token has been read, nothing else is. -/
theorem Finished.nth {s : Scanner} {position : Position} (h : s.Finished position) (n : Nat) :
    s.nth n = .endAt position := by
  induction n generalizing s with
  | zero => exact h.next.1
  | succ n ih => exact ih h.next.2

variable {s : Scanner} {before : Preceding} {front source : List Char}

/-- A scanner with no remark to read is at the end or steps over a token. -/
theorem Ready.nextLexeme (h : s.Ready before front source) (hremark : s.remark = false) :
    (IsGapBetween before source [] ∧ s.nextLexeme.1 = .endAt (.behind (front ++ source)) ∧
        s.nextLexeme.2.Finished (.behind (front ++ source))) ∨
      StepsOver before front source s.nextLexeme.1 s.nextLexeme.2 := by
  cases hrest : s.skipGap.rest with
  | nil =>
    obtain ⟨gap, hsource, hgap, hposition⟩ := h.exists_gap
    obtain rfl : source = gap := by rw [hsource, hrest, List.append_nil]
    rw [nextLexeme_of_nil hrest, hposition]
    exact .inl ⟨hrest ▸ hgap, rfl, hrest, hremark, hposition⟩
  | cons c cs => exact .inr (h.stepsOver_nextLexeme hrest)

/-- One call: either only a gap is left, or the scanner steps over a token. -/
theorem Reflects.next (h : s.Reflects before front source) :
    (IsGapBetween before source [] ∧ s.next.1 = .endAt (.behind (front ++ source)) ∧
        s.next.2.Finished (.behind (front ++ source))) ∨
      StepsOver before front source s.next.1 s.next.2 := by
  unfold Scanner.next
  cases hremark : s.remark with
  | false =>
    rw [takeRemark_of_not_remark hremark]
    exact (h.of_not_remark hremark).2.nextLexeme hremark
  | true =>
    obtain ⟨spaces, text, blanks, rest, hparts⟩ := exists_remarkParts hremark
    cases text with
    | nil =>
      have hready := hparts.ready hremark h
      rw [hparts.takeRemark_eq] at hready ⊢
      exact hready.nextLexeme rfl
    | cons c cs =>
      have hsteps := hparts.stepsOver hremark h
      rw [hparts.takeRemark_eq] at hsteps ⊢
      exact .inr hsteps

theorem tokens_of_end {t : Token} (h : s.next.1 = t) (ht : t.kind = .endOfInput) :
    s.tokens = [t] := by
  rw [tokens, h, dif_pos (by simp [Token.isEnd, ht])]

theorem tokens_of_ne_end (h : s.next.1.kind ≠ .endOfInput) :
    s.tokens = s.next.1 :: s.next.2.tokens := by
  rw [tokens, dif_neg (by simp [Token.isEnd, h])]

/-- The tokens that a scanner reads lie in its source. -/
theorem Reflects.layout {s : Scanner} {before : Preceding} {front source : List Char}
    (h : s.Reflects before front source) : Token.Layout before front source s.tokens := by
  rcases h.next with ⟨hgap, htoken, _⟩
    | ⟨gap, lexeme, rest, rfl, hgap, hend, hposition, hspelled, hrest⟩
  · rw [tokens_of_end htoken rfl]
    exact .done hgap
  · rw [tokens_of_ne_end hend]
    exact .token hgap hend hposition hspelled (Reflects.layout hrest)
termination_by s.rest.length
decreasing_by exact length_next_lt (by simpa [Token.isEnd] using hend)

/-- The calls of a scanner give its tokens, and then the end token for ever. -/
theorem Reflects.nth (h : s.Reflects before front source) (n : Nat) :
    s.nth n = s.tokens[n]?.getD (.endAt (.behind (front ++ source))) := by
  induction n generalizing s before front source with
  | zero =>
    rcases h.next with ⟨_, htoken, _⟩ | ⟨_, _, _, _, _, hend, _⟩
    · rw [tokens_of_end htoken rfl]
      exact htoken
    · rw [tokens_of_ne_end hend]
      rfl
  | succ n ih =>
    rcases h.next with ⟨_, htoken, hfinished⟩ | ⟨gap, lexeme, rest, rfl, _, hend, _, _, hrest⟩
    · rw [tokens_of_end htoken rfl]
      exact hfinished.nth n
    · rw [tokens_of_ne_end hend, List.getElem?_cons_succ, ← List.append_assoc, ← List.append_assoc,
        List.append_assoc front, ← List.append_assoc front]
      exact ih hrest

end Scanner

/-- The tokens of a source lie in it with nothing but gaps between them, each at its place. The end
token comes once, at the end of the source, and a scanner called beyond it gives it again. -/
theorem Token.scan_layout (source : String) :
    (∃ ts, Token.scan source = ts ++ [.endAt (.behind source.toList)] ∧
      ∀ t ∈ ts, t.kind ≠ .endOfInput) ∧
      Layout .other [] source.toList (Token.scan source) ∧
      ∀ n, (Scanner.ofString source).nth n =
        (Token.scan source)[n]?.getD (.endAt (.behind source.toList)) := by
  have h := Scanner.reflects_ofString source
  exact ⟨h.layout.exists_concat, h.layout, h.nth⟩

end LineBasic
