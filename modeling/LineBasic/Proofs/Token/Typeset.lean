import LineBasic.Proofs.Token.Rereading

/-!
# Laying tokens out again

The tokens of a source can be written down again, each at its own place with only newlines and
spaces before it (`Token.typeset`). As long as no string is left open, the tokens of that text are
the same, and so are those of every other text in which they lie at these places, whatever blanks
its gaps consist of (`Token.scan_typeset`). The reason is that a scanner behind a token in the one
text and a scanner behind it in the other (`Scanner.standing`) read the same tokens
(`Scanner.tokens_standing`).
-/

namespace LineBasic

/-- A token that is no remark is read from its first character on. -/
structure Token.IsReadFrom (t : Token) (lineStart : Bool) (c : Char) (cs r : List Char) : Prop where
  lexeme_eq : t.kind.lexeme t.text = c :: cs
  isGap_eq : isGap c = false
  read_eq : Lexeme.read lineStart c (cs ++ r) = ⟨t.kind, t.text.toList, c :: cs, r⟩

namespace Preceding

variable {before : Preceding} {t : Token}

theorem of_after_eq_remark (h : before.after t = .remark) :
    t.kind = .string ∧ before = .rem t.line := by
  unfold after at h
  split at h
  · cases h
  · split at h
    · assumption
    · cases h

theorem after_eq_of_rem (h : t.kind = .keyword .REM) : before.after t = .rem t.line :=
  if_pos h

theorem after_eq_other (h : t.kind ≠ .keyword .REM) (hafter : before.after t ≠ .remark) :
    before.after t = .other := by
  unfold after at hafter ⊢
  rw [if_neg h] at hafter ⊢
  split
  · rename_i hstring
    exact absurd (if_pos hstring) hafter
  · rfl

end Preceding

namespace Token.IsSpelled

variable {t : Token} {before : Preceding} {lexeme rest : List Char}

theorem eq_text (h : t.IsSpelled before lexeme rest) (hafter : before.after t = .remark) :
    lexeme = t.text.toList := by
  rwa [IsSpelled, if_pos (Preceding.of_after_eq_remark hafter).1, if_pos hafter] at h

theorem eq_lexeme (h : t.IsSpelled before lexeme rest) (hafter : before.after t ≠ .remark)
    (hclosed : ¬ t.IsUnterminated) : lexeme = t.kind.lexeme t.text := by
  unfold Kind.lexeme
  by_cases hstring : t.kind = .string
  · rw [if_pos hstring]
    rwa [IsSpelled, if_pos hstring, if_neg hafter] at h
  · have hplain : ¬ (t.kind = .illegal ∧ t.text = unterminated) := hclosed
    rw [if_neg hstring]
    rwa [IsSpelled, if_neg hstring, if_neg hplain] at h

end Token.IsSpelled

namespace Scanner

variable {s : Scanner} {p : Position} {before : Preceding}

/-! ## In the source -/

/-- A scanner stands behind a token that ends at a place. Behind a remark it has gone on to the end
of the line. -/
def Stands (s : Scanner) (p : Position) : Preceding → Prop
  | .other => s.remark = false ∧ s.position = p
  | .rem line => s.remark = true ∧ s.position = p ∧ p.line = line
  | .remark => s.remark = false ∧ s.position.line = p.line ∧ AtLineEnd s.rest

theorem lineStart_skipGap (s : Scanner) :
    s.skipGap.lineStart = (s.lineStart || s.position.line < s.skipGap.position.line) := by
  have hcontains : (s.rest.takeWhile isGap).contains '\n' =
      decide (s.position.line < s.position.line + (s.rest.takeWhile isGap).count '\n') := by
    rw [Bool.eq_iff_iff, List.contains_iff_mem, decide_eq_true_eq, ← List.count_pos_iff]
    omega
  rw [skipGap_position, Position.line_after, ← hcontains]
  rfl

/-- What a scanner does that reads a token from a line on. -/
def StepsFrom (s : Scanner) (line : Nat) : Prop :=
  ∃ c cs r, s.next.1.IsReadFrom (s.lineStart || line < s.next.1.line) c cs r ∧
    (s.next.1.kind = .keyword .REM → '\n' ∉ c :: cs) ∧
    s.next.2 = ⟨r, s.next.1.position.after (c :: cs), false, s.next.1.kind = .keyword .REM⟩

theorem stepsFrom_of_nextLexeme {s' : Scanner} (hnext : s.next = s'.nextLexeme)
    (hstart : s'.lineStart = s.lineStart) (hend : s.next.1.kind ≠ .endOfInput)
    (hclosed : ¬ s.next.1.IsUnterminated) : s.StepsFrom s'.position.line := by
  cases hrest : s'.skipGap.rest with
  | nil =>
    rw [hnext, nextLexeme_of_nil hrest] at hend
    exact absurd rfl hend
  | cons d ds =>
    rw [nextLexeme_of_cons hrest] at hnext
    rw [hnext] at hclosed
    have hl := Lexeme.spelling_read s'.skipGap.lineStart d ds
    have hsource := hl.source_eq fun hk ht => hclosed ⟨hk, ht⟩
    have happend := Lexeme.source_append_rest s'.skipGap.lineStart d ds
    obtain ⟨c, cs, hcs⟩ :=
      List.exists_cons_of_ne_nil (Lexeme.source_ne_nil s'.skipGap.lineStart d ds)
    rw [hcs, List.cons_append] at happend
    obtain ⟨rfl, hds⟩ := List.cons.inj happend
    refine ⟨c, cs, (Lexeme.read s'.skipGap.lineStart c ds).rest,
      ⟨?_, Lexeme.head_dropWhile hrest, ?_⟩, ?_, ?_⟩
    · rw [hnext, ← hcs, hsource]
    · have hline : (s.lineStart || s'.position.line < s.next.1.line : Bool) =
          s'.skipGap.lineStart := by
        rw [lineStart_skipGap, hnext, hstart]
        rfl
      rw [hline, hds, hnext, ← hcs, String.toList_ofList]
    · rw [hnext, ← hcs]
      exact hl.rem
    · rw [hnext, ← hcs]

theorem line_lt_nextLexeme (h : AtLineEnd s.rest) (hend : s.nextLexeme.1.kind ≠ .endOfInput) :
    s.position.line < s.nextLexeme.1.line := by
  cases hrest : s.rest with
  | nil =>
    rw [nextLexeme_of_nil (by rw [skipGap_rest, hrest, List.dropWhile_nil])] at hend
    exact absurd rfl hend
  | cons c cs =>
    obtain rfl : c = '\n' := h c (by rw [hrest]; rfl)
    rw [Token.line, position_nextLexeme, Position.line_after, hrest]
    simp [isGap]

/-- The step over a remark. -/
theorem Stands.next_of_remark (h : s.Stands p before) (hafter : before.after s.next.1 = .remark) :
    IsRemark s.next.1.text.toList ∧ s.next.2.lineStart = s.lineStart ∧
      s.next.2.Stands (s.next.1.position.after s.next.1.text.toList) .remark := by
  obtain ⟨hkind, rfl⟩ := Preceding.of_after_eq_remark hafter
  obtain ⟨hremark, rfl, hline⟩ := h
  have hline := hline.symm
  have htext := isRemark_of_next hremark hkind hline
  cases htake : s.takeRemark.1 with
  | none =>
    have hlt := line_lt_of_takeRemark hremark htake (by rw [hkind]; exact Kind.noConfusion)
    exact absurd hline hlt.ne'
  | some t =>
    obtain ⟨spaces, text, blanks, rest, hparts⟩ := exists_remarkParts hremark
    obtain ⟨_, rfl⟩ := hparts.text_ne_nil htake
    refine ⟨htext, ?_⟩
    rw [next_of_some htake, hparts.takeRemark_eq]
    refine ⟨rfl, rfl, ?_, hparts.atLineEnd⟩
    simp only [Position.after_append, String.toList_ofList, hparts.blankInLine.line_after]

/-- A token that is no remark stands on a later line behind `REM` and behind a remark. -/
theorem Stands.exists_nextLexeme (h : s.Stands p before)
    (hafter : before.after s.next.1 ≠ .remark) :
    ∃ s' : Scanner, s.next = s'.nextLexeme ∧ s'.lineStart = s.lineStart ∧
      s'.position.line = p.line ∧
      (before = .other ∨ AtLineEnd s'.rest) := by
  cases before with
  | other => exact ⟨s, next_of_not_remark h.1, rfl, by rw [h.2], .inl rfl⟩
  | remark => exact ⟨s, next_of_not_remark h.1, rfl, h.2.1, .inr h.2.2⟩
  | rem line =>
    obtain ⟨hremark, rfl, rfl⟩ := h
    obtain ⟨spaces, text, blanks, rest, hparts⟩ := exists_remarkParts hremark
    cases htake : s.takeRemark.1 with
    | none =>
      refine ⟨s.takeRemark.2, next_of_none htake, ?_⟩
      rw [hparts.takeRemark_eq, hparts.text_eq_nil htake]
      refine ⟨rfl, ?_, .inr hparts.atLineEnd⟩
      rw [List.nil_append, Position.after_append, hparts.blankInLine.line_after,
        hparts.line_after_spaces]
    | some t =>
      obtain ⟨_, rfl⟩ := hparts.text_ne_nil htake
      rw [next_of_some htake] at hafter
      simp [Preceding.after, Token.line, hparts.line_after_spaces] at hafter

theorem Stands.next_of_lexeme (h : s.Stands p before) (hafter : before.after s.next.1 ≠ .remark)
    (hend : s.next.1.kind ≠ .endOfInput) (hclosed : ¬ s.next.1.IsUnterminated) :
    (before = .other ∨ p.line < s.next.1.line) ∧ s.StepsFrom p.line := by
  obtain ⟨s', hnext, hstart, hline, hbefore⟩ := h.exists_nextLexeme hafter
  refine ⟨hbefore.imp_right fun hrest => ?_, ?_⟩
  · rw [← hline, hnext]
    exact line_lt_nextLexeme hrest (hnext ▸ hend)
  · rw [← hline]
    exact stepsFrom_of_nextLexeme hnext hstart hend hclosed

/-! ## In another text -/

/-- The scanner that stands behind a token in another text, at the place where that token ends. -/
def standing (before : Preceding) (p : Position) (lineStart : Bool) (source : List Char) :
    Scanner :=
  match before with
  | .other => ⟨source, p, lineStart, false⟩
  | .rem _ => ⟨source, p, lineStart, true⟩
  | .remark => (⟨source, p, lineStart, false⟩ : Scanner).skipWhile (· != '\n')

theorem isSpace_of_atLineEnd {r : List Char} (h : AtLineEnd r) :
    ∀ c ∈ r.head?, isSpace c = false := by
  intro c hc
  rw [h c hc]
  decide

theorem split_at_line_end {line r : List Char} (hline : '\n' ∉ line) (hr : AtLineEnd r) :
    (line ++ r).takeWhile (· != '\n') = line ∧ (line ++ r).dropWhile (· != '\n') = r := by
  apply Lexeme.takeWhile_dropWhile_append
  · intro c hc
    apply bne_iff_ne.mpr
    rintro rfl
    exact hline hc
  · intro c hc
    simp [hr c hc]

theorem skipWhile_of_atLineEnd {line r : List Char} (hrest : s.rest = line ++ r)
    (hline : '\n' ∉ line) (hr : AtLineEnd r) :
    s.skipWhile (· != '\n') = { s with rest := r, position := s.position.after line } := by
  obtain ⟨htake, hdrop⟩ := split_at_line_end hline hr
  rw [skipWhile, hrest, htake, hdrop]

theorem standing_remark {lineStart : Bool} {line r : List Char} (hline : '\n' ∉ line)
    (hr : AtLineEnd r) :
    standing .remark p lineStart (line ++ r) = ⟨r, p.after line, lineStart, false⟩ :=
  skipWhile_of_atLineEnd rfl hline hr

/-- Behind `REM`, what is left of the line is the remark. -/
theorem takeRemark_of_line {line r : List Char} (hremark : s.remark = true)
    (hrest : s.rest = line ++ r) (hline : '\n' ∉ line) (hr : AtLineEnd r) :
    s.takeRemark =
      (if (Text.trimEnd (line.dropWhile isSpace)).isEmpty then none
        else some ⟨.string, String.ofList (Text.trimEnd (line.dropWhile isSpace)),
          s.position.after (line.takeWhile isSpace)⟩,
        ⟨r, s.position.after line, s.lineStart, false⟩) := by
  have htake : s.rest.takeWhile isSpace = line.takeWhile isSpace := by
    rw [hrest, takeWhile_append_of_head (isSpace_of_atLineEnd hr)]
  have hdrop : (s.skipWhile isSpace).rest = line.dropWhile isSpace ++ r := by
    rw [skipWhile, hrest, dropWhile_append_of_head (isSpace_of_atLineEnd hr)]
  have hline' : '\n' ∉ line.dropWhile isSpace :=
    fun hmem => hline ((List.dropWhile_suffix isSpace).subset hmem)
  have hskip := skipWhile_of_atLineEnd hdrop hline' hr
  have htext : s.remarkText = Text.trimEnd (line.dropWhile isSpace) := by
    rw [remarkText, hdrop, (split_at_line_end hline' hr).1]
  rw [takeRemark_of_remark hremark, htext, hskip]
  have hposition : (s.skipWhile isSpace).position = s.position.after (line.takeWhile isSpace) := by
    rw [skipWhile, htake]
  rw [hposition, ← Position.after_append, List.takeWhile_append_dropWhile]
  rfl

/-- Blanks up to the end of a line are passed. -/
theorem next_standing_of_blanks {lineStart : Bool} {blanks r : List Char}
    (hblanks : BlankInLine blanks)
    (h : before = .other ∧ blanks = [] ∨ before ≠ .other ∧ AtLineEnd r) :
    (standing before p lineStart (blanks ++ r)).next =
      (⟨r, p.after blanks, lineStart, false⟩ : Scanner).nextLexeme := by
  have hline := hblanks.newline_not_mem
  cases before with
  | other =>
    obtain ⟨_, rfl⟩ := h.resolve_right fun hne => hne.1 rfl
    exact next_of_not_remark rfl
  | rem line =>
    have hr : AtLineEnd r := (h.resolve_left fun hother => Preceding.noConfusion hother.1).2
    have htake :=
      takeRemark_of_line (s := standing (.rem line) p lineStart (blanks ++ r)) rfl rfl hline hr
    have hempty : Text.trimEnd (blanks.dropWhile isSpace) = [] :=
      Text.trimEnd_eq_nil_iff.mpr fun c hc =>
        (hblanks c ((List.dropWhile_suffix isSpace).subset hc)).1
    rw [hempty] at htake
    rw [next_of_none (by rw [htake]; rfl), htake]
    rfl
  | remark =>
    have hr : AtLineEnd r := (h.resolve_left fun hother => Preceding.noConfusion hother.1).2
    rw [standing_remark hline hr]
    exact next_of_not_remark rfl

/-- A gap with a line end in it, or before the end of the text, is blanks up to a line end and gaps
from there on. -/
theorem exists_blanks_of_gap {gap r : List Char} (h : IsGapBetween before gap r)
    (hline : '\n' ∈ gap ∨ r = []) :
    ∃ blanks spaces, gap = blanks ++ spaces ∧ BlankInLine blanks ∧ (∀ c ∈ spaces, isGap c = true) ∧
      AtLineEnd (spaces ++ r) := by
  rcases h with hgap | ⟨_, h⟩
  · have hsplit : gap.takeWhile (· != '\n') ++ gap.dropWhile (· != '\n') = gap :=
      List.takeWhile_append_dropWhile
    refine ⟨gap.takeWhile (· != '\n'), gap.dropWhile (· != '\n'), hsplit.symm, ?_, ?_, ?_⟩
    · intro c hc
      refine ⟨isBlank_of_isGap (hgap c ((List.takeWhile_prefix _).subset hc)), ?_⟩
      simpa using List.mem_takeWhile_imp hc
    · exact fun c hc => hgap c ((List.dropWhile_suffix _).subset hc)
    · rcases hline with hmem | rfl
      · have hne : gap.dropWhile (· != '\n') ≠ [] := by
          intro hnil
          simpa using List.dropWhile_eq_nil_iff.mp hnil _ hmem
        obtain ⟨c, cs, hcs⟩ := List.exists_cons_of_ne_nil hne
        have hend := atLineEnd_dropWhile gap
        rw [hcs] at hend ⊢
        exact hend
      · rw [List.append_nil]
        exact atLineEnd_dropWhile gap
  · exact h

theorem exists_blanks_of_line {gap r : List Char} (h : IsGapBetween before gap r)
    (hline : before = .other ∨ '\n' ∈ gap ∨ r = []) :
    ∃ blanks spaces, gap = blanks ++ spaces ∧ BlankInLine blanks ∧ (∀ c ∈ spaces, isGap c = true) ∧
      (before = .other ∧ blanks = [] ∨ before ≠ .other ∧ AtLineEnd (spaces ++ r)) := by
  by_cases hother : before = .other
  · have hgap := h.resolve_right fun hne => hne.1 hother
    exact ⟨[], gap, rfl, by simp [BlankInLine], hgap, .inl ⟨hother, rfl⟩⟩
  · obtain ⟨blanks, spaces, heq, hblanks, hspaces, hend⟩ :=
      exists_blanks_of_gap h (hline.resolve_left hother)
    exact ⟨blanks, spaces, heq, hblanks, hspaces, .inr ⟨hother, hend⟩⟩

theorem newline_mem_of_line_lt {gap : List Char} (h : p.line < (p.after gap).line) :
    '\n' ∈ gap := by
  rw [Position.line_after] at h
  exact List.count_pos_iff.mp (by omega)

/-- A token that can be read where it stands is read, behind whatever gap. -/
theorem next_standing_of_lexeme {lineStart : Bool} {gap cs r : List Char} {c : Char} {t : Token}
    (hgap : IsGapBetween before gap (c :: cs ++ r)) (hposition : t.position = p.after gap)
    (hread : t.IsReadFrom (lineStart || p.line < t.line) c cs r)
    (hline : before = .other ∨ p.line < t.line) :
    (standing before p lineStart (gap ++ (c :: cs ++ r))).next =
      (t, ⟨r, t.position.after (c :: cs), false, t.kind = .keyword .REM⟩) := by
  obtain ⟨blanks, spaces, rfl, hblanks, hspaces, hbefore⟩ := exists_blanks_of_line hgap <| by
    rw [Token.line, hposition] at hline
    exact hline.imp_right fun hlt => .inl (newline_mem_of_line_lt hlt)
  rw [List.append_assoc, next_standing_of_blanks hblanks hbefore]
  generalize hs : (⟨spaces ++ (c :: cs ++ r), p.after blanks, lineStart, false⟩ : Scanner) = s
  have hhead : ∀ d ∈ (c :: cs ++ r).head?, isGap d = false := by simpa using hread.isGap_eq
  obtain ⟨htake, hdrop⟩ := Lexeme.takeWhile_dropWhile_append hspaces hhead
  have hplace : s.skipGap.position = t.position := by
    rw [skipGap_position, ← hs, htake, hposition, Position.after_append]
  have hstart : s.skipGap.lineStart = (lineStart || p.line < t.line : Bool) := by
    have hfirst : s.position.line = p.line := by rw [← hs, hblanks.line_after]
    rw [lineStart_skipGap, hplace, hfirst, ← hs]
    rfl
  have hrest : s.skipGap.rest = c :: (cs ++ r) := by
    rw [skipGap_rest, ← hs]
    exact hdrop
  rw [nextLexeme_of_cons hrest, hstart, hread.read_eq, hplace, String.ofList_toList]

/-- Where only a gap is left, the next token is the end token. -/
theorem tokens_standing_of_gap {lineStart : Bool} {gap : List Char}
    (hgap : IsGapBetween before gap []) :
    (standing before p lineStart gap).tokens = [.endAt (p.after gap)] := by
  obtain ⟨blanks, spaces, rfl, hblanks, hspaces, hbefore⟩ :=
    exists_blanks_of_line hgap (.inr (.inr rfl))
  rw [List.append_nil] at hbefore
  apply tokens_of_end _ rfl
  have hrest : (⟨spaces, p.after blanks, lineStart, false⟩ : Scanner).skipGap.rest = [] :=
    List.dropWhile_eq_nil_iff.mpr hspaces
  rw [next_standing_of_blanks hblanks hbefore, nextLexeme_of_nil hrest, skipGap_position,
    List.takeWhile_eq_self_iff.mpr hspaces, Position.after_append]

/-- A remark is read again if only blanks follow it on its line. -/
theorem next_standing_of_remark {line : Nat} {lineStart : Bool} {gap text blanks r : List Char}
    (hgap : ∀ c ∈ gap, isSpace c = true) (htext : IsRemark text) (hblanks : BlankInLine blanks)
    (hr : AtLineEnd r) :
    (standing (.rem line) p lineStart (gap ++ (text ++ (blanks ++ r)))).next =
      (⟨.string, String.ofList text, p.after gap⟩,
        standing .remark ((p.after gap).after text) lineStart (blanks ++ r)) := by
  have hblanks' := hblanks.newline_not_mem
  have hline : '\n' ∉ gap ++ (text ++ blanks) := by
    refine List.not_mem_append ?_ (List.not_mem_append htext.newline hblanks')
    exact fun hmem => (isBlank_of_isSpace (hgap _ hmem)).2 rfl
  obtain ⟨c, cs, rfl⟩ := List.exists_cons_of_ne_nil htext.ne_nil
  have hhead : ∀ d ∈ ((c :: cs) ++ blanks).head?, isSpace d = false := htext.head
  obtain ⟨htake, hdrop⟩ := Lexeme.takeWhile_dropWhile_append hgap hhead
  have htrim : Text.trimEnd ((c :: cs) ++ blanks) = c :: cs := by
    rw [Text.trimEnd_append fun d hd => (hblanks d hd).1, htext.trimEnd]
  have hremark :=
    takeRemark_of_line (s := standing (.rem line) p lineStart (gap ++ ((c :: cs) ++ (blanks ++ r))))
      rfl
    (by simp [standing]) hline hr
  rw [htake, hdrop, htrim] at hremark
  rw [next_of_some (by rw [hremark]; rfl), hremark, standing_remark hblanks' hr]
  simp only [Position.after_append, standing]

/-! ## In both texts -/

theorem head?_tokens (s : Scanner) : s.tokens.head? = some s.next.1 := by
  by_cases hend : s.next.1.kind = .endOfInput
  · rw [tokens_of_end rfl hend]
    rfl
  · rw [tokens_of_ne_end hend]
    rfl

theorem next_eq_of_tokens {s' : Scanner} (h : s.tokens = s'.tokens) : s.next.1 = s'.next.1 := by
  have hhead := s.head?_tokens
  rw [h, s'.head?_tokens] at hhead
  exact (Option.some.inj hhead).symm

theorem next_of_tokens {t : Token} {ts : List Token} (h : s.tokens = t :: ts)
    (hend : t.kind ≠ .endOfInput) : s.next.1 = t ∧ s.next.2.tokens = ts := by
  have hhead := s.head?_tokens
  rw [h] at hhead
  obtain rfl : t = s.next.1 := Option.some.inj hhead
  rw [tokens_of_ne_end hend] at h
  exact ⟨rfl, (List.cons.inj h).2⟩

/-- Behind a token that is no remark, rests with the same tokens look alike to it. -/
theorem looksAlike_of_tokens {s' : Scanner} {kind : Kind} (h : s.tokens = s'.tokens)
    (hclosed : ∀ u ∈ s.tokens, ¬ u.IsUnterminated) (hposition : s.position = s'.position)
    (hremark : s.remark = decide (kind = .keyword .REM))
    (hremark' : s'.remark = decide (kind = .keyword .REM)) :
    Lexeme.SameHead s.rest s'.rest ∧
      (kind = .number ∨ kind = .lineNumber → Lexeme.LooksAlike s.rest s'.rest) := by
  have hnext := next_eq_of_tokens h
  by_cases hrem : kind = .keyword .REM
  · rw [decide_eq_true hrem] at hremark hremark'
    refine ⟨sameHead_of_next hposition hremark hremark' hnext, ?_⟩
    rw [hrem]
    rintro (hkind | hkind) <;> cases hkind
  · rw [decide_eq_false hrem] at hremark hremark'
    have halike :=
      looksAlike_of_next hposition hremark hremark' hnext
        (hclosed _ (List.mem_of_mem_head? s.head?_tokens))
    exact ⟨halike.sameHead, fun _ => halike⟩

theorem standing_after {t : Token} {q : Position} {r : List Char}
    (hafter : before.after t ≠ .remark) :
    standing (before.after t) q false r = ⟨r, q, false, t.kind = .keyword .REM⟩ := by
  by_cases hrem : t.kind = .keyword .REM
  · rw [Preceding.after_eq_of_rem hrem, decide_eq_true hrem]
    rfl
  · rw [Preceding.after_eq_other hrem hafter, decide_eq_false hrem]
    rfl

theorem stands_after {t : Token} {cs r : List Char} (hafter : before.after t ≠ .remark)
    (hrem : t.kind = .keyword .REM → '\n' ∉ cs) :
    (⟨r, t.position.after cs, false, t.kind = .keyword .REM⟩ : Scanner).Stands (t.position.after cs)
      (before.after t) := by
  by_cases hkind : t.kind = .keyword .REM
  · rw [Preceding.after_eq_of_rem hkind]
    refine ⟨decide_eq_true hkind, rfl, ?_⟩
    rw [Position.line_after, List.count_eq_zero.mpr (hrem hkind)]
    rfl
  · rw [Preceding.after_eq_other hkind hafter]
    exact ⟨decide_eq_false hkind, rfl⟩

theorem isSpace_of_gap {gap text rest : List Char} (h : IsGapBetween before gap (text ++ rest))
    (htext : IsRemark text) (hline : '\n' ∉ gap) : ∀ c ∈ gap, isSpace c = true := by
  intro c hc
  rcases h with hgap | ⟨_, blanks, spaces, rfl, _, _, hend⟩
  · have hc' := hgap c hc
    rw [isGap, Bool.or_eq_true] at hc'
    refine hc'.resolve_right fun hnewline => hline ?_
    rwa [← beq_iff_eq.mp hnewline]
  · -- The gap would come to the end of the line, before the remark.
    exfalso
    cases spaces with
    | nil =>
      obtain ⟨d, ds, rfl⟩ := List.exists_cons_of_ne_nil htext.ne_nil
      exact htext.newline (hend d rfl ▸ List.mem_cons_self)
    | cons d spaces =>
      apply hline
      rw [← hend d rfl]
      exact List.mem_append_right _ List.mem_cons_self

/-- Only blanks follow a remark on its line, in whatever text its tokens lie. -/
theorem exists_blanks_behind_remark {front source : List Char} {ts : List Token}
    (h : Token.Layout .remark front source ts) (hs : s.tokens = ts)
    (hstands : s.Stands (.behind front) .remark) (hclosed : ∀ t ∈ ts, ¬ t.IsUnterminated) :
    ∃ blanks r, source = blanks ++ r ∧ BlankInLine blanks ∧ AtLineEnd r := by
  cases h with
  | done hgap =>
    obtain ⟨blanks, spaces, heq, hblanks, _, hend⟩ := exists_blanks_of_gap hgap (.inr rfl)
    exact ⟨blanks, spaces, heq, hblanks, List.append_nil spaces ▸ hend⟩
  | @token _ _ gap lexeme rest t ts hgap hend hposition _ _ =>
    obtain ⟨rfl, _⟩ := next_of_tokens hs hend
    have hafter : Preceding.remark.after s.next.1 ≠ .remark := by
      intro hremark
      cases (Preceding.of_after_eq_remark hremark).2
    obtain ⟨hline, _⟩ := hstands.next_of_lexeme hafter hend (hclosed _ List.mem_cons_self)
    rw [Token.line, hposition, Position.behind_append] at hline
    have hnewline := newline_mem_of_line_lt (hline.resolve_left Preceding.noConfusion)
    obtain ⟨blanks, spaces, rfl, hblanks, _, hspaces⟩ := exists_blanks_of_gap hgap (.inl hnewline)
    exact ⟨blanks, spaces ++ (lexeme ++ rest), List.append_assoc _ _ _, hblanks, hspaces⟩

/-- If the tokens of a scanner lie in another text, a scanner in that text reads them too. -/
theorem tokens_standing {front source : List Char} {ts : List Token}
    (h : Token.Layout before front source ts) (hs : s.tokens = ts)
    (hstands : s.Stands (.behind front) before) (hclosed : ∀ t ∈ ts, ¬ t.IsUnterminated) :
    (standing before (.behind front) s.lineStart source).tokens = ts := by
  induction h generalizing s with
  | @done before front gap hgap =>
    rw [Position.behind_append]
    exact tokens_standing_of_gap hgap
  | @token before front gap lexeme rest t ts hgap hend hposition hspelled hrest ih =>
    obtain ⟨rfl, htail⟩ := next_of_tokens hs hend
    obtain ⟨hopen, hclosed⟩ := List.forall_mem_cons.mp hclosed
    rw [Position.behind_append] at hposition
    have hplace : Position.behind (front ++ gap ++ lexeme) = s.next.1.position.after lexeme := by
      rw [hposition, Position.behind_append, Position.behind_append]
    by_cases hafter : before.after s.next.1 = .remark
    · obtain ⟨htext, hstart, hstands'⟩ := hstands.next_of_remark hafter
      obtain rfl := hspelled.eq_text hafter
      rw [hafter] at hrest ih
      rw [← hplace] at hstands'
      obtain ⟨blanks, r, rfl, hblanks, hr⟩ :=
        exists_blanks_behind_remark hrest htail hstands' hclosed
      have hrest' := ih htail hstands' hclosed
      rw [hstart, hplace] at hrest'
      obtain ⟨hkind, rfl⟩ := Preceding.of_after_eq_remark hafter
      have hline : '\n' ∉ gap := by
        have hline := hstands.2.2
        rw [Token.line, hposition, Position.line_after] at hline
        exact List.count_eq_zero.mp (by omega)
      have hnext : (standing (.rem s.next.1.line) (.behind front) s.lineStart _).next = _ :=
        next_standing_of_remark (isSpace_of_gap hgap htext hline) htext hblanks hr
      rw [tokens_of_ne_end (by rw [hnext]; exact Kind.noConfusion), hnext, ← hposition, hrest',
        String.ofList_toList, ← hkind]
    · obtain ⟨hline, c, cs, r, hread, hrem, hbehind⟩ := hstands.next_of_lexeme hafter hend hopen
      obtain rfl : lexeme = c :: cs := (hspelled.eq_lexeme hafter hopen).trans hread.lexeme_eq
      have hstands' : s.next.2.Stands (.behind (front ++ gap ++ c :: cs))
          (before.after s.next.1) := by
        rw [hplace, hbehind]
        exact stands_after hafter hrem
      have hrest' := ih htail hstands' hclosed
      rw [hbehind] at htail hrest'
      rw [hplace, standing_after hafter] at hrest'
      obtain ⟨hhead, halike⟩ :=
        looksAlike_of_tokens (htail.trans hrest'.symm) (htail ▸ hclosed) rfl rfl rfl
      have hlegal : s.next.1.kind = .illegal →
          String.ofList s.next.1.text.toList ≠ Token.unterminated := by
        rw [String.ofList_toList]
        exact fun hkind htext => hopen ⟨hkind, htext⟩
      have hread' : s.next.1.IsReadFrom _ c cs rest :=
        ⟨hread.lexeme_eq, hread.isGap_eq,
          Lexeme.read_of_looksAlike hread.read_eq hlegal hhead halike⟩
      have hnext := next_standing_of_lexeme hgap hposition hread' hline
      rw [tokens_of_ne_end (by rw [hnext]; exact hend), hnext, hrest']

end Scanner

/-! ## Writing tokens down -/

/-- Newlines and then spaces from a place to another. -/
def Position.gapTo (p q : Position) : List Char :=
  List.replicate (q.line - p.line) '\n' ++
    List.replicate (q.column - if p.line < q.line then 1 else p.column) ' '

theorem Position.after_replicate_newline (p : Position) (n : Nat) :
    p.after (List.replicate (n + 1) '\n') = ⟨p.line + (n + 1), 1⟩ := by
  induction n generalizing p with
  | zero => rfl
  | succ n ih =>
    rw [List.replicate_succ, after_cons, ih]
    simp [advance, Nat.add_comm, Nat.add_left_comm]

theorem Position.after_replicate_space (p : Position) (n : Nat) :
    p.after (List.replicate n ' ') = ⟨p.line, p.column + n⟩ := by
  have hline : '\n' ∉ List.replicate n ' ' := by
    intro hmem
    exact absurd (List.eq_of_mem_replicate hmem) (by decide)
  rw [after_eq_right hline, right, List.length_replicate]

theorem Position.isGapBetween_gapTo (p q : Position) (before : Preceding) (rest : List Char) :
    IsGapBetween before (p.gapTo q) rest := by
  left
  intro c hc
  rcases List.mem_append.mp hc with hc | hc
  · rw [List.eq_of_mem_replicate hc]
    decide
  · rw [List.eq_of_mem_replicate hc]
    decide

/-- The gap ends where it is to end, if that is behind some text. -/
theorem Position.after_gapTo (front cs : List Char) :
    (behind front).after ((behind front).gapTo (behind (front ++ cs))) = behind (front ++ cs) := by
  have hline : (behind (front ++ cs)).line = (behind front).line + cs.count '\n' := by
    rw [behind_append, line_after]
  have hcolumn : 1 ≤ (behind (front ++ cs)).column := Nat.le_add_right _ _
  rw [gapTo, hline, Nat.add_sub_cancel_left, after_append]
  by_cases hnewline : '\n' ∈ cs
  · obtain ⟨n, hn⟩ := Nat.exists_eq_add_of_lt (List.count_pos_iff.mpr hnewline)
    rw [Nat.zero_add] at hn
    rw [hn] at hline ⊢
    rw [after_replicate_newline, after_replicate_space, if_pos (by omega)]
    generalize behind (front ++ cs) = q at hline hcolumn ⊢
    obtain ⟨line, column⟩ := q
    obtain rfl : line = _ := hline
    rw [Nat.add_sub_cancel' hcolumn]
  · rw [List.count_eq_zero.mpr hnewline] at hline ⊢
    rw [List.replicate_zero, after_nil, after_replicate_space, if_neg (by omega)]
    have hright : behind (front ++ cs) = (behind front).right cs.length := by
      rw [behind_append, after_eq_right hnewline]
    rw [hright]
    simp [right]

namespace Token

/-- How a token is written: a string in quotes, unless it is a remark. -/
def written (before : Preceding) (t : Token) : List Char :=
  if before.after t = .remark then t.text.toList else t.kind.lexeme t.text

/-- The text of tokens that are written down from a place on, each where it stands, with newlines
and spaces between them. -/
def typeset (before : Preceding) (p : Position) : List Token → List Char
  | [] => []
  | t :: ts =>
    let text := p.gapTo t.position ++ t.written before
    text ++ typeset (before.after t) (p.after text) ts

theorem IsSpelled.eq_written {t : Token} {before : Preceding} {lexeme rest : List Char}
    (h : t.IsSpelled before lexeme rest) (hclosed : ¬ t.IsUnterminated) :
    lexeme = t.written before := by
  unfold written
  split
  · exact h.eq_text ‹_›
  · exact h.eq_lexeme ‹_› hclosed

theorem isSpelled_written {t : Token} {before : Preceding} {rest : List Char}
    (hclosed : ¬ t.IsUnterminated) : t.IsSpelled before (t.written before) rest := by
  have hplain : ¬ (t.kind = .illegal ∧ t.text = unterminated) := hclosed
  unfold IsSpelled written Kind.lexeme
  by_cases hstring : t.kind = .string
  · rw [if_pos hstring, if_pos hstring]
  · rw [if_neg hstring, if_neg hstring, if_neg hplain, ite_self]

theorem written_endAt (before : Preceding) (p : Position) : (endAt p).written before = [] := rfl

/-- Tokens that lie in some text lie in the one that they make when they are written down. -/
theorem Layout.typeset {before : Preceding} {front source : List Char} {ts : List Token}
    (h : Layout before front source ts) (hclosed : ∀ t ∈ ts, ¬ t.IsUnterminated)
    {front' : List Char} (hfront : Position.behind front' = .behind front) :
    Layout before front' (typeset before (.behind front') ts) ts := by
  induction h generalizing front' with
  | @done before front gap hgap =>
    have hplace := Position.after_gapTo front gap
    rw [← hfront, ← Position.behind_append] at hplace
    have hgap' := Position.isGapBetween_gapTo (.behind front') (.behind (front ++ gap)) before []
    have hdone : Layout before front' _ _ := .done hgap'
    rw [hplace] at hdone
    simp only [Token.typeset, written_endAt, List.append_nil]
    exact hdone
  | @token before front gap lexeme rest t ts hgap hend hposition hspelled hrest ih =>
    obtain ⟨hopen, hclosed⟩ := List.forall_mem_cons.mp hclosed
    obtain rfl := hspelled.eq_written hopen
    have hplace := Position.after_gapTo front gap
    rw [← hfront, ← Position.behind_append, ← hposition] at hplace
    have hbehind : Position.behind
        (front' ++ (Position.behind front').gapTo t.position ++ t.written before) =
        .behind (front ++ gap ++ t.written before) := by
      rw [Position.behind_append, hplace, Position.behind_append (front ++ gap), ← hposition]
    have hrest' := ih hclosed hbehind
    have hgap' := Position.isGapBetween_gapTo (.behind front') t.position before
    rw [Token.typeset, List.append_assoc, ← Position.behind_append, ← List.append_assoc front']
    exact .token (hgap' _) hend hplace.symm (isSpelled_written hopen) hrest'

/-- Tokens that are written down each at its place are read again, and so they are from every text
in which they lie there: what the gaps between them consist of does not matter. -/
theorem scan_typeset {source : String} (h : ∀ t ∈ scan source, ¬ t.IsUnterminated) :
    scan (String.ofList (typeset .other .start (scan source))) = scan source ∧
      ∀ other : String, Layout .other [] other.toList (scan source) ↔ scan other = scan source := by
  have hlayout : Layout .other [] source.toList (scan source) :=
    (Scanner.reflects_ofString source).layout
  have hread : ∀ other : String, Layout .other [] other.toList (scan source) →
      scan other = scan source :=
    fun other hother => Scanner.tokens_standing hother rfl ⟨rfl, rfl⟩ h
  refine ⟨hread _ ?_, fun other => ⟨hread other, fun heq => ?_⟩⟩
  · rw [String.toList_ofList]
    exact hlayout.typeset h rfl
  · rw [← heq]
    exact (Scanner.reflects_ofString other).layout

/-- A source with tabs and carriage returns, a remark before blanks, a string over two lines and
tokens without a gap. -/
def tabbed : String :=
  "10\tREM\t a \"b  \r\n 20PRINT\"A\n B\";.5<>X$\t\n"

theorem scan_typeset_tabbed :
    (∀ t ∈ scan tabbed, ¬ t.IsUnterminated) ∧
      scan (String.ofList (typeset .other .start (scan tabbed))) = scan tabbed := by
  have hlegal : (scan tabbed).all (fun t => t.kind != .illegal) = true := by with_unfolding_all rfl
  have hclosed : ∀ t ∈ scan tabbed, ¬ t.IsUnterminated := by
    intro t ht hopen
    have hkind := List.all_eq_true.mp hlegal t ht
    rw [hopen.1] at hkind
    cases hkind
  exact ⟨hclosed, (scan_typeset hclosed).1⟩

example : String.ofList (typeset .other .start (scan tabbed)) =
    "10 REM  a \"b\n 20PRINT\"A\n B\";.5<>X$\n" := by
  with_unfolding_all rfl

end Token

end LineBasic
