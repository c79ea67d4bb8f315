import LineBasic.Proofs.Token.Typeset

/-!
# Which numbers are line numbers

A number is a line number if only spaces lie between it and the start of its line, which is the
start of the source or a line feed outside of strings, and if a keyword is the next token on this
line (`Token.scan_lineNumber`). The scanner tells the first by a flag. It stands behind a token, or
nothing has been read yet (`Scanner.Begun`); a token does not end in a space, so the flag is right.
It tells the second by looking ahead, and finds the token that is read next.
-/

namespace LineBasic

/-! ## Numerals -/

/-- A row of digits, or digits behind a point, with or without digits before it. -/
def SpellsNumber (cs : List Char) : Prop :=
  ∃ whole, (∀ c ∈ whole, c.isDigit = true) ∧
    (cs = whole ∧ whole ≠ [] ∨
      ∃ fraction, (∀ c ∈ fraction, c.isDigit = true) ∧ fraction ≠ [] ∧
        cs = whole ++ '.' :: fraction)

namespace Lexeme

theorem spellsNumber_splitNumber {c : Char} {cs : List Char} (h : startsNumber c cs = true) :
    SpellsNumber (splitNumber (c :: cs)).1 := by
  have hne := ne_nil_of_startsNumber h
  rcases (splitNumber_cases (c :: cs)).2 with
    ⟨hdigits, -⟩ | ⟨whole, fraction, heq, hwhole, hfraction, hne'⟩
  · exact ⟨_, hdigits, .inl ⟨rfl, hne⟩⟩
  · exact ⟨whole, hwhole, .inr ⟨fraction, hfraction, hne', heq⟩⟩

/-- A text that begins with a numeral begins with a number. -/
theorem startsNumber_of_spellsNumber {numeral rest cs : List Char} {c : Char}
    (h : SpellsNumber numeral) (hcs : numeral ++ rest = c :: cs) : startsNumber c cs = true := by
  obtain ⟨whole, hwhole, hnumeral⟩ := h
  cases whole with
  | nil =>
    obtain ⟨-, hne⟩ | ⟨fraction, hfraction, hne, rfl⟩ := hnumeral
    · exact absurd rfl hne
    · obtain ⟨d, ds, rfl⟩ := List.exists_cons_of_ne_nil hne
      obtain ⟨rfl, rfl⟩ := List.cons.inj hcs
      simp [startsNumber, hfraction d List.mem_cons_self]
  | cons d ds =>
    have hd : d.isDigit = true := hwhole d List.mem_cons_self
    obtain rfl : d = c := by
      rcases hnumeral with ⟨rfl, -⟩ | ⟨fraction, -, -, rfl⟩ <;> exact (List.cons.inj hcs).1
    rw [startsNumber, hd, Bool.true_or]

theorem isGap_of_isWordChar {c : Char} (h : isWordChar c = true) : isGap c = false := by
  by_contra hgap
  have hblank := Scanner.isBlank_of_isGap (Bool.not_eq_false _ ▸ hgap)
  rw [Text.isWordChar_of_isBlank hblank] at h
  cases h

theorem isGap_of_mem_splitWord {c : Char} {cs : List Char} (h : isWordStart c = true) :
    ∀ d ∈ (splitWord (c :: cs)).1, isGap d = false := by
  intro d hd
  obtain ⟨c', body, hstart, hbody, hword⟩ := isWord_splitWord cs h
  have hcases : d = c' ∨ d ∈ body ∨ d = '$' := by
    rcases hword with hword | hword <;> rw [hword] at hd <;> simp at hd <;> tauto
  rcases hcases with rfl | hmem | rfl
  · exact isGap_of_isWordStart hstart
  · exact isGap_of_isWordChar (hbody d hmem)
  · decide

theorem isGap_of_mem_symbol {c : Char} {cs : List Char} (hc : isGap c = false) :
    ∀ d ∈ (symbol c cs).source, isGap d = false := by
  have hsingle : ∀ d ∈ [c], isGap d = false := by simpa using hc
  unfold symbol
  split
  · split
    case h_4 => exact hsingle
    all_goals simp [isGap, isSpace]
  · exact hsingle

/-- There is no gap in a lexeme other than a string. -/
theorem isGap_of_mem_source {lineStart : Bool} {c : Char} {cs : List Char} (hc : isGap c = false)
    (hquote : c ≠ '"') : ∀ d ∈ (read lineStart c cs).source, isGap d = false := by
  unfold read
  split
  · intro d hd
    rcases isDigit_or_point_of_splitNumber hd with hdigit | rfl
    · exact isGap_of_isDigit hdigit
    · decide
  · split
    · rename_i hstart
      exact isGap_of_mem_splitWord hstart
    · exact isGap_of_mem_symbol hc

/-- What begins with a quote is a string or has no closing quote. -/
theorem kind_read_quote (lineStart : Bool) (cs : List Char) :
    (read lineStart '"' cs).kind = .string ∨
      (read lineStart '"' cs).kind = .illegal ∧
        String.ofList (read lineStart '"' cs).text = Token.unterminated := by
  rw [read_quote, string]
  split
  · exact .inl rfl
  · exact .inr ⟨rfl, by rw [String.ofList_toList]⟩

end Lexeme

/-! ## Where a scanner stands -/

/-- A text ends with a character that does not only separate tokens. -/
def EndsSolid (cs : List Char) : Prop :=
  ∃ init c, cs = init ++ [c] ∧ isGap c = false

theorem EndsSolid.append {cs : List Char} (h : EndsSolid cs) (front : List Char) :
    EndsSolid (front ++ cs) := by
  obtain ⟨init, c, rfl, hc⟩ := h
  exact ⟨front ++ init, c, (List.append_assoc ..).symm, hc⟩

theorem endsSolid_of_forall {cs : List Char} (hne : cs ≠ []) (h : ∀ c ∈ cs, isGap c = false) :
    EndsSolid cs :=
  ⟨cs.dropLast, cs.getLast hne, (List.dropLast_append_getLast hne).symm, h _ (List.getLast_mem hne)⟩

theorem IsRemark.endsSolid {cs : List Char} (h : IsRemark cs) : EndsSolid cs := by
  have hsplit : cs = cs.dropLast ++ [cs.getLast h.ne_nil] :=
    (List.dropLast_append_getLast h.ne_nil).symm
  generalize cs.dropLast = init, cs.getLast h.ne_nil = c at hsplit
  refine ⟨init, c, hsplit, ?_⟩
  by_contra hgap
  -- A blank at the end would have been trimmed away.
  have hblank : ∀ d ∈ [c], Text.isBlank d = true := by
    simpa using Scanner.isBlank_of_isGap (Bool.not_eq_false _ ▸ hgap)
  have htrim := h.trimEnd
  rw [hsplit, Text.trimEnd_append hblank] at htrim
  obtain ⟨blanks, hinit, -⟩ := Scanner.exists_trimEnd_append init
  rw [htrim] at hinit
  simpa using congrArg List.length hinit

theorem Token.IsUnterminated.eq_nil_of_isSpelled {t : Token} (h : t.IsUnterminated)
    {before : Preceding} {lexeme rest : List Char} (hspelled : t.IsSpelled before lexeme rest) :
    rest = [] := by
  have hstring : t.kind ≠ .string := by
    rw [h.1]
    exact Kind.noConfusion
  have hopen : t.kind = .illegal ∧ t.text = unterminated := h
  rw [IsSpelled, if_neg hstring, if_pos hopen] at hspelled
  exact hspelled.2

namespace Scanner

variable {s : Scanner} {before : Preceding} {front source : List Char}

/-- A scanner has read nothing yet, or stands behind a token on whose line it is. Only a string
without a closing quote can end in a gap, and nothing is left behind it. -/
inductive Begun (s : Scanner) : Preceding → List Char → List Char → Prop
  | first {source : List Char} (hstart : s.lineStart = true) (hremark : s.remark = false) :
      Begun s .other [] source
  | behind {before : Preceding} {front source : List Char} (hstart : s.lineStart = false)
    (hfront : source = [] ∨ EndsSolid front) : Begun s before front source

/-- A token that is no string is read as a lexeme. -/
theorem Reflects.exists_ready (h : s.Reflects before front source)
    (hstring : s.next.1.kind ≠ .string) :
    ∃ s' : Scanner, s.next = s'.nextLexeme ∧ s'.lineStart = s.lineStart ∧
      s'.Ready before front source := by
  cases hremark : s.remark with
  | false => exact ⟨s, next_of_not_remark hremark, rfl, (h.of_not_remark hremark).2⟩
  | true =>
    obtain ⟨spaces, text, blanks, rest, hparts⟩ := exists_remarkParts hremark
    cases htake : s.takeRemark.1 with
    | some t =>
      rw [next_of_some htake] at hstring
      exact absurd (kind_of_takeRemark htake) hstring
    | none =>
      obtain rfl := hparts.text_eq_nil htake
      refine ⟨s.takeRemark.2, next_of_none htake, ?_, hparts.ready hremark h⟩
      rw [hparts.takeRemark_eq]

theorem Begun.lineStart_next (h : s.Begun before front source)
    (hend : s.next.1.kind ≠ .endOfInput) : s.next.2.lineStart = false := by
  cases htake : s.takeRemark.1 with
  | none =>
    rw [next_of_none htake] at hend ⊢
    cases hrest : s.takeRemark.2.skipGap.rest with
    | nil =>
      rw [nextLexeme_of_nil hrest] at hend
      exact absurd rfl hend
    | cons c cs => rw [nextLexeme_of_cons hrest]
  | some t =>
    rw [next_of_some htake]
    cases hremark : s.remark with
    | false =>
      rw [takeRemark_of_not_remark hremark] at htake
      cases htake
    | true =>
      obtain ⟨spaces, text, blanks, rest, hparts⟩ := exists_remarkParts hremark
      rw [hparts.takeRemark_eq]
      cases h with
      | first _ hfalse => exact absurd hremark (by simp [hfalse])
      | behind hstart _ => exact hstart

/-- A remark is read only behind `REM`, and on its line. -/
theorem Reflects.isRemark (h : s.Reflects before front source)
    (hafter : before.after s.next.1 = .remark) : IsRemark s.next.1.text.toList := by
  obtain ⟨hkind, hbefore⟩ := Preceding.of_after_eq_remark hafter
  cases hremark : s.remark with
  | false => exact absurd hbefore ((h.of_not_remark hremark).1 _)
  | true =>
    refine isRemark_of_next hremark hkind ?_
    exact Preceding.rem.inj (hbefore.symm.trans (h.of_remark hremark).1)

/-- The spelling of a token has no gap at its end, unless nothing is left behind it. -/
theorem Reflects.endsSolid (h : s.Reflects before front source)
    (hend : s.next.1.kind ≠ .endOfInput) {lexeme rest : List Char}
    (hspelled : s.next.1.IsSpelled before lexeme rest) : rest = [] ∨ EndsSolid lexeme := by
  by_cases hafter : before.after s.next.1 = .remark
  · rw [hspelled.eq_text hafter]
    exact .inr (h.isRemark hafter).endsSolid
  by_cases hopen : s.next.1.IsUnterminated
  · exact .inl (hopen.eq_nil_of_isSpelled hspelled)
  rw [hspelled.eq_lexeme hafter hopen, Kind.lexeme]
  right
  by_cases hstring : s.next.1.kind = .string
  · rw [if_pos hstring]
    exact ⟨_, '"', rfl, by decide⟩
  · rw [if_neg hstring]
    obtain ⟨s', hnext, -, -⟩ := h.exists_ready hstring
    cases hrest : s'.skipGap.rest with
    | nil =>
      rw [hnext, nextLexeme_of_nil hrest] at hend
      exact absurd rfl hend
    | cons c cs =>
      rw [nextLexeme_of_cons hrest] at hnext
      rw [hnext] at hstring hopen ⊢
      have hl := Lexeme.spelling_read s'.skipGap.lineStart c cs
      have hquote : c ≠ '"' := by
        rintro rfl
        rcases Lexeme.kind_read_quote s'.skipGap.lineStart cs with hkind | hkind
        · exact hstring hkind
        · exact hopen hkind
      rw [String.toList_ofList, ← hl.plain hstring fun hkind htext => hopen ⟨hkind, htext⟩]
      exact endsSolid_of_forall (Lexeme.source_ne_nil _ _ _)
        (Lexeme.isGap_of_mem_source (Lexeme.head_dropWhile hrest) hquote)

theorem Begun.next (h : s.Begun before front source) (hs : s.Reflects before front source)
    (hend : s.next.1.kind ≠ .endOfInput) {gap lexeme rest : List Char}
    (hspelled : s.next.1.IsSpelled before lexeme rest) :
    s.next.2.Begun (before.after s.next.1) (front ++ gap ++ lexeme) rest :=
  .behind (h.lineStart_next hend) ((hs.endsSolid hend hspelled).imp_right fun hlexeme =>
    hlexeme.append _)

/-- The scanner that reads the tokens from an index on. -/
theorem Begun.exists_drop (h : s.Begun before front source) (hs : s.Reflects before front source)
    {i : Nat} (hi : i < s.tokens.length) :
    ∃ (s' : Scanner) (before' : Preceding) (front' source' : List Char),
      s'.Begun before' front' source' ∧
      s'.Reflects before' front' source' ∧ front' ++ source' = front ++ source ∧
        s'.tokens = s.tokens.drop i := by
  induction i generalizing s before front source with
  | zero => exact ⟨s, before, front, source, h, hs, rfl, rfl⟩
  | succ i ih =>
    rcases hs.next with ⟨-, htoken, -⟩ | ⟨gap, lexeme, rest, rfl, -, hend, -, hspelled, hrest⟩
    · rw [tokens_of_end htoken rfl, List.length_singleton] at hi
      exact absurd hi (by omega)
    · rw [tokens_of_ne_end hend, List.length_cons] at hi
      obtain ⟨s', before', front', source', h', hs', hsource, htokens⟩ :=
        ih (h.next hs hend hspelled) hrest (Nat.lt_of_succ_lt_succ hi)
      refine ⟨s', before', front', source', h', hs', ?_, ?_⟩
      · rw [hsource]
        simp only [List.append_assoc]
      · rw [htokens, tokens_of_ne_end hend, List.drop_succ_cons]

end Scanner

/-! ## The start of a line -/

/-- Only spaces stand in a text behind its start or its last line feed. -/
def IsMargin (cs : List Char) : Prop :=
  ∃ text blanks, cs = text ++ blanks ∧ (∀ c ∈ blanks, isSpace c = true) ∧
    (text = [] ∨ ∃ front, text = front ++ ['\n'])

/-- A text up to its last line feed, and its last line. -/
theorem exists_lastLine (cs : List Char) :
    ∃ text line, cs = text ++ line ∧ '\n' ∉ line ∧
      (text = [] ∨ ∃ front, text = front ++ ['\n']) := by
  induction cs using List.reverseRecOn with
  | nil => exact ⟨[], [], rfl, List.not_mem_nil, .inl rfl⟩
  | append_singleton cs c ih =>
    obtain ⟨text, line, rfl, hline, htext⟩ := ih
    by_cases hc : c = '\n'
    · exact ⟨text ++ line ++ [c], [], (List.append_nil _).symm, List.not_mem_nil,
        .inr ⟨_, by rw [hc]⟩⟩
    · refine ⟨text, line ++ [c], List.append_assoc .., ?_, htext⟩
      simpa [hline] using Ne.symm hc

theorem isSpace_of_isGap {c : Char} (h : isGap c = true) (hc : c ≠ '\n') : isSpace c = true := by
  simpa [isGap, hc] using h

/-- A text that ends in spaces and line feeds is a margin if there is a line feed among them. -/
theorem isMargin_append {front gap : List Char} (hgap : ∀ c ∈ gap, isGap c = true)
    (hnewline : '\n' ∈ gap) : IsMargin (front ++ gap) := by
  obtain ⟨text, line, rfl, hline, htext⟩ := exists_lastLine gap
  rcases htext with rfl | ⟨init, rfl⟩
  · exact absurd hnewline hline
  · refine ⟨front ++ (init ++ ['\n']), line, (List.append_assoc ..).symm, ?_,
      .inr ⟨front ++ init, ?_⟩⟩
    · intro c hc
      refine isSpace_of_isGap (hgap c (List.mem_append_right _ hc)) ?_
      rintro rfl
      exact hline hc
    · rw [List.append_assoc]

/-- Behind the end of a token no margin begins on the same line. -/
theorem EndsSolid.not_isMargin {front gap : List Char} (h : EndsSolid front) (hgap : '\n' ∉ gap) :
    ¬ IsMargin (front ++ gap) := by
  obtain ⟨init, c, rfl, hc⟩ := h
  rintro ⟨text, blanks, heq, hblanks, htext⟩
  have hmem : c ∉ blanks := by
    intro hmem
    rw [isGap, hblanks c hmem] at hc
    cases hc
  have hne : c ≠ '\n' := by
    rintro rfl
    cases hc
  rw [List.append_assoc, List.append_eq_append_iff] at heq
  rcases heq with ⟨more, rfl, hmore⟩ | ⟨more, rfl, rfl⟩
  · cases more with
    | nil => exact hmem (by rw [List.nil_append] at hmore; rw [← hmore]; simp)
    | cons d ds =>
      have hnewline : '\n' ∈ d :: ds := by
        rcases htext with htext | ⟨front, htext⟩
        · simp at htext
        · have hlast := congrArg List.getLast? htext
          rw [List.getLast?_append_cons, List.getLast?_concat] at hlast
          exact List.mem_of_getLast? hlast
      have hnot : '\n' ∉ [c] ++ gap := by simp [hgap, Ne.symm hne]
      exact hnot (hmore ▸ List.mem_append_left _ hnewline)
  · exact hmem (List.mem_append_right _ (by simp))

namespace Scanner

variable {s s' : Scanner} {before : Preceding} {front source : List Char}

/-- The flag of a scanner tells whether only spaces lie between the next token and the start of its
line. -/
theorem Begun.exists_margin_iff (h : s.Begun before front source)
    (hstart : s'.lineStart = s.lineStart) (hready : s'.Ready before front source)
    (hrest : s'.skipGap.rest ≠ []) :
    ∃ gap, source = gap ++ s'.skipGap.rest ∧ s'.skipGap.position = .behind (front ++ gap) ∧
      (s'.skipGap.lineStart = true ↔ IsMargin (front ++ gap)) := by
  obtain ⟨blanks, hsource, hposition, hblank, hblanks⟩ := hready.exists_blanks
  have hsplit : s'.rest.takeWhile isGap ++ s'.skipGap.rest = s'.rest :=
    List.takeWhile_append_dropWhile
  have hgaps : ∀ c ∈ s'.rest.takeWhile isGap, isGap c = true :=
    fun c hc => List.mem_takeWhile_imp hc
  have hflag : s'.skipGap.lineStart = (s.lineStart || (s'.rest.takeWhile isGap).contains '\n') := by
    rw [← hstart]
    rfl
  refine ⟨blanks ++ s'.rest.takeWhile isGap, ?_, ?_, ?_⟩
  · rw [List.append_assoc, hsplit, hsource]
  · rw [skipGap_position, hposition, ← Position.behind_append, List.append_assoc]
  rw [hflag]
  by_cases hnewline : '\n' ∈ s'.rest.takeWhile isGap
  · refine iff_of_true (by simp [hnewline]) ?_
    rw [← List.append_assoc]
    exact isMargin_append hgaps hnewline
  rw [List.contains_eq_mem, decide_eq_false hnewline, Bool.or_false]
  cases h with
  | first hfirst _ =>
    have hnil : blanks = [] := hblanks.resolve_right fun hbefore => hbefore.1 rfl
    have hmargin : IsMargin ([] ++ (blanks ++ s'.rest.takeWhile isGap)) := by
      refine ⟨[], s'.rest.takeWhile isGap, by rw [hnil]; rfl, fun c hc => ?_, .inl rfl⟩
      refine isSpace_of_isGap (hgaps c hc) ?_
      rintro rfl
      exact hnewline hc
    exact iff_of_true hfirst hmargin
  | behind hbehind hfront =>
    have hsolid : EndsSolid front := by
      refine hfront.resolve_left fun hnil => hrest ?_
      rw [hsource, List.append_eq_nil_iff] at hnil
      rw [skipGap_rest, hnil.2, List.dropWhile_nil]
    have hnot : '\n' ∉ blanks ++ s'.rest.takeWhile isGap := by
      simp [hblank.newline_not_mem, hnewline]
    exact iff_of_false (by simp [hbehind]) (hsolid.not_isMargin hnot)

/-- What a scanner takes for a line number. -/
theorem Begun.exists_lineNumber_iff (h : s.Begun before front source)
    (hs : s.Reflects before front source)
    (hkind : s.next.1.kind = .number ∨ s.next.1.kind = .lineNumber) :
    ∃ gap c cs, source = gap ++ c :: cs ∧ s.next.1.position = .behind (front ++ gap) ∧
      (s.next.1.kind = .lineNumber ↔
        IsMargin (front ++ gap) ∧ Lexeme.keywordFollows s.next.2.rest = true) ∧
      s.next.2.remark = false ∧ s.next.2.position.line = s.next.1.line := by
  have hstring : s.next.1.kind ≠ .string := by
    rcases hkind with hkind | hkind <;> rw [hkind] <;> simp
  obtain ⟨s', hnext, hstart, hready⟩ := hs.exists_ready hstring
  cases hrest : s'.skipGap.rest with
  | nil =>
    rw [hnext, nextLexeme_of_nil hrest] at hkind
    rcases hkind with hkind | hkind <;> cases hkind
  | cons c cs =>
    obtain ⟨gap, hsource, hposition, hmargin⟩ :=
      h.exists_margin_iff hstart hready (hrest ▸ List.cons_ne_nil c cs)
    rw [nextLexeme_of_cons hrest] at hnext
    rw [hnext] at hkind ⊢
    rw [hrest] at hsource
    dsimp only at hkind ⊢
    obtain ⟨-, hread⟩ := Lexeme.read_of_number hkind
    rw [hread] at hkind ⊢
    refine ⟨gap, c, cs, hsource, hposition, ?_, ?_, ?_⟩
    · rw [← hmargin, ← Bool.and_eq_true]
      unfold Lexeme.number
      dsimp only
      split <;> simp_all
    · rcases hkind with hkind | hkind <;> simp [hkind]
    · have hnewline : '\n' ∉ (Lexeme.number s'.skipGap.lineStart (c :: cs)).source := by
        intro hmem
        rcases Lexeme.isDigit_or_point_of_splitNumber hmem with hdigit | hpoint
        · cases hdigit
        · exact absurd hpoint (by decide)
      rw [Position.line_after, List.count_eq_zero.mpr hnewline]
      rfl

end Scanner

/-! ## Strings over several lines -/

namespace Token

theorem Layout.exists_position_eq {before : Preceding} {front source : List Char}
    {ts : List Token} (h : Layout before front source ts) :
    ∀ t ∈ ts, ∃ more, more <+: source ∧ t.position = .behind (front ++ more) := by
  induction h with
  | @done before front gap hgap =>
    intro t ht
    obtain rfl := List.mem_singleton.mp ht
    exact ⟨gap, List.prefix_rfl, rfl⟩
  | @token before front gap lexeme rest t ts hgap hend hposition hspelled hrest ih =>
    intro u hu
    rcases List.mem_cons.mp hu with rfl | hu
    · exact ⟨gap, List.prefix_append _ _, hposition⟩
    · obtain ⟨more, hmore, hu⟩ := ih u hu
      refine ⟨gap ++ (lexeme ++ more), ?_, ?_⟩
      · rw [List.prefix_append_right_inj, List.prefix_append_right_inj]
        exact hmore
      · rw [hu]
        simp only [List.append_assoc]

/-- The line feed behind a text that begins a source stands in a string of the source, closed or
not. -/
def InString (source : String) (front : List Char) : Prop :=
  ∃ u ∈ scan source, ∃ opening body, u.position = .behind opening ∧ front = opening ++ '"' :: body ∧
    (u.kind = .string ∧ (∃ more, u.text.toList = body ++ '\n' :: more) ∨ u.IsUnterminated)

/-- Only spaces lie between a token and the start of its line, which is the start of the source or a
line feed that does not stand in a string. -/
def OpensLine (source : String) (t : Token) : Prop :=
  ∃ text blanks, (text ++ blanks) <+: source.toList ∧ t.position = .behind (text ++ blanks) ∧
    (∀ c ∈ blanks, isSpace c = true) ∧
      (text = [] ∨ ∃ front, text = front ++ ['\n'] ∧ ¬ InString source front)

/-- The scanner that reads a token of a source. -/
theorem exists_scanner {source : String} {i : Nat} {t : Token} (ht : (scan source)[i]? = some t) :
    ∃ (s : Scanner) (before : Preceding) (front rest : List Char),
      s.Begun before front rest ∧ s.Reflects before front rest ∧ front ++ rest = source.toList ∧
        s.tokens = (scan source).drop i ∧ s.next.1 = t := by
  obtain ⟨hi, -⟩ := List.getElem?_eq_some_iff.mp ht
  have hbegun : (Scanner.ofString source).Begun .other [] source.toList := .first rfl rfl
  obtain ⟨s, before, front, rest, h, hs, hsource, htokens⟩ :=
    hbegun.exists_drop (Scanner.reflects_ofString source) hi
  refine ⟨s, before, front, rest, h, hs, hsource, htokens, ?_⟩
  have hhead := s.head?_tokens
  rw [htokens, List.head?_drop] at hhead
  exact Option.some.inj (hhead.symm.trans ht)

/-- The spelling of a token in a source ends before another token begins. -/
structure EndsBefore (source : List Char) (t u : Token) (before : Preceding)
    (front lexeme more rest : List Char) :
    Prop where
  source_eq : source = front ++ (lexeme ++ (more ++ rest))
  position_eq : t.position = .behind front
  isSpelled : t.IsSpelled before lexeme (more ++ rest)
  isRemark : before.after t = .remark → IsRemark t.text.toList
  position_next : u.position = .behind (front ++ (lexeme ++ more))

theorem exists_endsBefore {source : String} {i j : Nat} {t u : Token} (hij : i < j)
    (ht : (scan source)[i]? = some t) (hu : (scan source)[j]? = some u) :
    ∃ before front lexeme more rest,
      EndsBefore source.toList t u before front lexeme more rest := by
  obtain ⟨s, before, front, rest, -, hs, hsource, htokens, rfl⟩ := exists_scanner ht
  have hlater : u ∈ s.tokens.drop 1 := by
    refine List.mem_of_getElem? (i := j - (i + 1)) ?_
    rw [htokens, List.drop_drop, List.getElem?_drop, ← hu]
    congr 1
    omega
  rcases hs.next with ⟨-, htoken, -⟩ | ⟨gap, lexeme, rest, rfl, -, hend, hposition, hspelled, hrest⟩
  · rw [Scanner.tokens_of_end htoken rfl] at hlater
    cases hlater
  · rw [Scanner.tokens_of_ne_end hend, List.drop_one, List.tail_cons] at hlater
    obtain ⟨more, ⟨rest, rfl⟩, hmore⟩ := hrest.layout.exists_position_eq u hlater
    refine ⟨before, front ++ gap, lexeme, more, rest, ?_, hposition, hspelled, hs.isRemark, ?_⟩
    · rw [← hsource, List.append_assoc]
    · rw [hmore, List.append_assoc]

/-- A string that takes a line feed ends with a quote behind it, or takes all the rest of the
source. -/
theorem EndsBefore.quote_mem_or_eq_nil {source front lexeme more rest body blanks : List Char}
    {t u : Token} {before : Preceding} (h : EndsBefore source u t before front lexeme more rest)
    (hlexeme : lexeme ++ more = '"' :: body ++ '\n' :: blanks)
    (hu : u.kind = .string ∧ (∃ more, u.text.toList = body ++ '\n' :: more) ∨ u.IsUnterminated) :
    '"' ∈ blanks ∨ rest = [] := by
  rcases hu with ⟨hstring, inner, htext⟩ | hopen
  · left
    have hafter : before.after u ≠ .remark := by
      intro hafter
      exact (h.isRemark hafter).newline (by simp [htext])
    have hspelled := h.isSpelled
    rw [IsSpelled, if_pos hstring, if_neg hafter, htext] at hspelled
    rw [hspelled] at hlexeme
    have hblanks : blanks = inner ++ '"' :: more := by simpa using hlexeme.symm
    simp [hblanks]
  · exact .inr (List.append_eq_nil_iff.mp (hopen.eq_nil_of_isSpelled h.isSpelled)).2

/-- No string reaches over a margin before a number. -/
theorem not_inString {source : String} {i : Nat} {t : Token} {front blanks rest : List Char}
    (ht : (scan source)[i]? = some t) (hkind : t.kind = .number ∨ t.kind = .lineNumber)
    (hrest : rest ≠ []) (hsource : source.toList = front ++ '\n' :: blanks ++ rest)
    (hposition : t.position = .behind (front ++ '\n' :: blanks))
    (hblanks : ∀ c ∈ blanks, isSpace c = true) : ¬ InString source front := by
  rintro ⟨u, hmem, opening, body, hopening, rfl, hu⟩
  obtain ⟨j, hj⟩ := List.mem_iff_getElem?.mp hmem
  have hprefix : opening <+: source.toList := by
    rw [hsource]
    simp [List.append_assoc]
  have hprefix' : opening ++ '"' :: body ++ '\n' :: blanks <+: source.toList := by
    rw [hsource]
    exact List.prefix_append _ _
  rcases Nat.lt_trichotomy j i with hji | rfl | hij
  -- A string before the number ends with a quote, which is no space, or reaches the end of the
  -- source.
  · obtain ⟨before, front, lexeme, more, rest', h⟩ := exists_endsBefore hji hj ht
    obtain rfl : front = opening :=
      Position.eq_of_behind_eq ⟨_, h.source_eq.symm⟩ hprefix (h.position_eq.symm.trans hopening)
    have hplace : front ++ (lexeme ++ more) = front ++ '"' :: body ++ '\n' :: blanks := by
      refine Position.eq_of_behind_eq ⟨rest', ?_⟩ hprefix' (h.position_next.symm.trans hposition)
      rw [h.source_eq]
      simp only [List.append_assoc]
    have hlexeme : lexeme ++ more = '"' :: body ++ '\n' :: blanks := by
      rwa [List.append_assoc, List.append_cancel_left_eq] at hplace
    rcases h.quote_mem_or_eq_nil hlexeme hu with hquote | hnil
    · cases hblanks '"' hquote
    · have hend := h.source_eq
      rw [hnil, List.append_nil, hplace, hsource] at hend
      exact hrest (by simpa using hend)
  · obtain rfl : u = t := Option.some.inj (hj.symm.trans ht)
    rcases hu with ⟨hu, -⟩ | ⟨hu, -⟩ <;> rcases hkind with
      hkind | hkind <;> cases hu.symm.trans hkind
  -- A string behind the number begins behind the margin.
  · obtain ⟨before, front, lexeme, more, rest', h⟩ := exists_endsBefore hij ht hj
    have hplace : front = opening ++ '"' :: body ++ '\n' :: blanks :=
      Position.eq_of_behind_eq ⟨_, h.source_eq.symm⟩ hprefix' (h.position_eq.symm.trans hposition)
    have hopening' : front ++ (lexeme ++ more) = opening := by
      refine Position.eq_of_behind_eq ⟨rest', ?_⟩ hprefix (h.position_next.symm.trans hopening)
      rw [h.source_eq]
      simp only [List.append_assoc]
    have hlength := congrArg List.length hopening'
    rw [hplace] at hlength
    simp only [List.length_append, List.length_cons] at hlength
    omega

/-- Whether a number opens its line is told by what stands before it. -/
theorem opensLine_iff {source : String} {i : Nat} {t : Token} {place rest : List Char}
    (ht : (scan source)[i]? = some t) (hkind : t.kind = .number ∨ t.kind = .lineNumber)
    (hrest : rest ≠ []) (hsource : source.toList = place ++ rest)
    (hposition : t.position = .behind place) : t.OpensLine source ↔ IsMargin place := by
  constructor
  · rintro ⟨text, blanks, hprefix, hplace, hblanks, htext⟩
    refine ⟨text, blanks, ?_, hblanks, htext.imp_right fun ⟨front, hfront, _⟩ => ⟨front, hfront⟩⟩
    exact Position.eq_of_behind_eq ⟨rest, hsource.symm⟩ hprefix (hposition.symm.trans hplace)
  · rintro ⟨text, blanks, rfl, hblanks, htext⟩
    refine ⟨text, blanks, ⟨rest, hsource.symm⟩, hposition, hblanks, htext.imp_right ?_⟩
    rintro ⟨front, rfl⟩
    rw [← List.append_cons] at hposition hsource
    exact ⟨front, rfl, not_inString ht hkind hrest hsource hposition hblanks⟩

/-! ## Numbers and line numbers -/

/-- A token that is a numeral, and not the text of a string or a remark. -/
def IsNumeric (t : Token) : Prop :=
  t.kind ≠ .string ∧ SpellsNumber t.text.toList

theorem isNumeric_read_iff (lineStart : Bool) (c : Char) (cs : List Char) (position : Position) :
    IsNumeric ⟨(Lexeme.read lineStart c cs).kind,
      String.ofList (Lexeme.read lineStart c cs).text, position⟩ ↔
      (Lexeme.read lineStart c cs).kind = .number ∨
        (Lexeme.read lineStart c cs).kind = .lineNumber := by
  rw [IsNumeric, String.toList_ofList]
  dsimp only
  constructor
  · rintro ⟨hstring, hnumeral⟩
    have hl := Lexeme.spelling_read lineStart c cs
    have hopen : String.ofList (Lexeme.read lineStart c cs).text ≠ unterminated := by
      intro htext
      rw [← String.toList_inj, String.toList_ofList] at htext
      rw [htext] at hnumeral
      have hstarts : Lexeme.startsNumber 'u' "nterminated string".toList = true :=
        Lexeme.startsNumber_of_spellsNumber hnumeral (List.append_nil _)
      exact absurd hstarts (by decide)
    have happend := Lexeme.source_append_rest lineStart c cs
    rw [hl.plain hstring fun _ => hopen] at happend
    rw [Lexeme.read, if_pos (Lexeme.startsNumber_of_spellsNumber hnumeral happend), Lexeme.number]
    dsimp only
    split
    · exact .inr rfl
    · exact .inl rfl
  · intro hkind
    obtain ⟨hstarts, hread⟩ := Lexeme.read_of_number hkind
    refine ⟨?_, ?_⟩
    · rcases hkind with hkind | hkind <;> rw [hkind] <;> exact Kind.noConfusion
    · rw [hread]
      exact Lexeme.spellsNumber_splitNumber hstarts

theorem isNumeric_iff (source : String) :
    ∀ t ∈ scan source, t.IsNumeric ↔ t.kind = .number ∨ t.kind = .lineNumber := by
  apply Scanner.forall_mem_tokens
  · intro position
    refine iff_of_false ?_ (by simp [endAt])
    rintro ⟨-, whole, -, ⟨hnil, hne⟩ | ⟨fraction, -, -, hnil⟩⟩
    · exact hne hnil.symm
    · simp [endAt] at hnil
  · exact isNumeric_read_iff
  · intro s t ht
    have hkind := Scanner.kind_of_takeRemark ht
    exact iff_of_false (fun hnumeric => hnumeric.1 hkind) (by simp [hkind])

/-- A number in a source is a line number if only spaces lie between it and the start of its line
and a keyword is the next token on this line; otherwise it is a plain number. Whether a keyword
comes next is seen by looking ahead, which always agrees with the token that is read next. -/
theorem scan_lineNumber (source : String) :
    (∀ (i : Nat) (t : Token), (scan source)[i]? = some t →
        (t.IsNumeric ↔ t.kind = .number ∨ t.kind = .lineNumber) ∧
        (t.IsNumeric → (t.kind = .lineNumber ↔
          t.OpensLine source ∧ ∃ u k, (scan source)[i + 1]? = some u ∧ u.kind = .keyword k ∧
            u.line = t.line))) ∧
      ∀ s : Scanner, s.remark = false →
        (Lexeme.keywordFollows s.rest = true ↔
          (∃ k, s.next.1.kind = .keyword k) ∧ s.next.1.line = s.position.line) := by
  refine ⟨fun i t ht => ?_, fun s hs => Scanner.keywordFollows_iff hs⟩
  have hnumeric := isNumeric_iff source t (List.mem_of_getElem? ht)
  refine ⟨hnumeric, fun ht' => ?_⟩
  have hkind := hnumeric.mp ht'
  obtain ⟨s, before, front, rest, h, hs, hsource, htokens, rfl⟩ := exists_scanner ht
  obtain ⟨gap, c, cs, rfl, hposition, hiff, hremark, hline⟩ := h.exists_lineNumber_iff hs hkind
  have hopens :=
    opensLine_iff ht hkind (List.cons_ne_nil c cs) (by rw [← hsource, List.append_assoc]) hposition
  have hend : s.next.1.kind ≠ .endOfInput := by
    rcases hkind with hkind | hkind <;> rw [hkind] <;> exact Kind.noConfusion
  have hnext : (scan source)[i + 1]? = some s.next.2.next.1 := by
    have hget : (s.tokens)[1]? = (scan source)[i + 1]? := by rw [htokens, List.getElem?_drop]
    rw [← hget, Scanner.tokens_of_ne_end hend, List.getElem?_cons_succ, ← List.head?_eq_getElem?,
      Scanner.head?_tokens]
  rw [hiff, hopens, Scanner.keywordFollows_iff hremark, hline, hnext]
  refine and_congr_right fun _ => ?_
  constructor
  · rintro ⟨⟨k, hk⟩, hline⟩
    exact ⟨_, k, rfl, hk, hline⟩
  · rintro ⟨u, k, hu, hk, hline⟩
    obtain rfl := Option.some.inj hu
    exact ⟨⟨k, hk⟩, hline⟩

/-- A number and a keyword behind a string over two lines, and on the next line behind a tab. -/
def overTwoLines : String := "PRINT \"A\n\" 7 LET\n\t20 REM"

theorem scan_overTwoLines :
    scan overTwoLines =
      [⟨.keyword .PRINT, "PRINT", ⟨1, 1⟩⟩, ⟨.string, "A\n", ⟨1, 7⟩⟩, ⟨.number, "7", ⟨2, 3⟩⟩,
        ⟨.keyword .LET, "LET", ⟨2, 5⟩⟩, ⟨.lineNumber, "20", ⟨3, 2⟩⟩, ⟨.keyword .REM, "REM", ⟨3, 5⟩⟩,
        ⟨.endOfInput, "", ⟨3, 8⟩⟩] := by
  with_unfolding_all rfl

theorem scan_lineNumber_overTwoLines :
    OpensLine overTwoLines ⟨.lineNumber, "20", ⟨3, 2⟩⟩ ∧
      ¬ OpensLine overTwoLines ⟨.number, "7", ⟨2, 3⟩⟩ ∧
      ∃ k, ({ rest := " LET".toList } : Scanner).next.1.kind = .keyword k := by
  have hget (i : Nat) : (scan overTwoLines)[i]? = _ := congrArg (·[i]?) scan_overTwoLines
  obtain ⟨hscan, hahead⟩ := scan_lineNumber overTwoLines
  refine ⟨?_, ?_, ((hahead { rest := " LET".toList } rfl).mp (by decide +kernel)).1⟩
  · obtain ⟨hnumeric, hiff⟩ := hscan 4 _ (hget 4)
    exact ((hiff (hnumeric.mpr (.inr rfl))).mp rfl).1
  · intro hopens
    obtain ⟨hnumeric, hiff⟩ := hscan 2 _ (hget 2)
    have hkind := (hiff (hnumeric.mpr (.inl rfl))).mpr ⟨hopens, _, .LET, hget 3, rfl, rfl⟩
    cases hkind

end Token

end LineBasic
