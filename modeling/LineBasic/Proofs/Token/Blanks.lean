import LineBasic.Proofs.Token.Lines

/-!
# Blanks around a line

Blanks at the end of a line are no part of any token: a remark is read without them, and behind all
other tokens there are only spaces, since another blank would be an illegal character and a string
would stay open. So a line has the same tokens with and without them, as long as its tokens are
legal (`Token.body_append_blanks`). Spaces at the beginning of a line move its tokens to the right
(`Token.body_spaces_append`).
-/

namespace LineBasic

namespace Text

theorem trimEnd_eq_nil_iff {cs : List Char} : trimEnd cs = [] ↔ ∀ c ∈ cs, isBlank c = true :=
  List.rdropWhile_eq_nil_iff

theorem isBlank_of_trim_eq_nil {cs : List Char} (h : trim cs = []) :
    ∀ c ∈ cs, isBlank c = true := by
  have hall : ∀ c ∈ cs.takeWhile isBlank ++ cs.dropWhile isBlank, isBlank c = true :=
    List.forall_mem_append.mpr ⟨fun c hc => List.mem_takeWhile_imp hc, trimEnd_eq_nil_iff.mp h⟩
  rwa [List.takeWhile_append_dropWhile] at hall

theorem trimEnd_append {cs blanks : List Char} (h : ∀ c ∈ blanks, isBlank c = true) :
    trimEnd (cs ++ blanks) = trimEnd cs := by
  rw [trimEnd, List.reverse_append,
    List.dropWhile_append_of_pos (fun c hc => h c (List.mem_reverse.mp hc)), trimEnd]

end Text

theorem blankInLine_of_isBlank {cs : List Char} (h : ∀ c ∈ cs, Text.isBlank c = true)
    (hnewline : '\n' ∉ cs) : BlankInLine cs := by
  intro c hc
  refine ⟨h c hc, ?_⟩
  rintro rfl
  exact hnewline hc

namespace Lexeme

theorem breaks_of_blankInLine {e : List Char} (h : BlankInLine e) : Breaks e := by
  intro c hc
  exact (h c ((List.dropWhile_suffix isSpace).subset (List.mem_of_mem_head? hc))).1

/-- A blank begins no token. -/
theorem kind_read_of_isBlank {c : Char} (h : Text.isBlank c = true) (lineStart : Bool)
    (cs : List Char) : (read lineStart c cs).kind = .illegal := by
  have hne : ∀ d, Text.isBlank d = false → c ≠ d := fun d => Text.ne_of_isBlank h
  have hnumber : startsNumber c cs = false := by
    simp [startsNumber, Text.isDigit_of_isBlank h, hne '.' (by decide)]
  have hword : isWordStart c = false := by
    have hchar := Text.isWordChar_of_isBlank h
    simp only [isWordChar, Char.isAlphanum, Bool.or_eq_false_iff] at hchar
    simp [isWordStart, hchar]
  have hsymbol : symbolKind c = .illegal := by
    unfold symbolKind
    split
    case h_13 => rfl
    all_goals exact absurd h (by decide)
  unfold read
  rw [if_neg (by simp [hnumber]), if_neg (by simp [hword]), if_neg (hne '"' (by decide))]
  cases cs with
  | nil => exact hsymbol
  | cons d ds => simp [symbol, hne '<' (by decide), hne '>' (by decide), hsymbol]

theorem read_quote (lineStart : Bool) (cs : List Char) : read lineStart '"' cs = string cs := by
  have hnumber : startsNumber '"' cs = false := rfl
  have hword : isWordStart '"' = false := rfl
  simp [read, hnumber, hword]

/-- A string that is open at the end of a text stays open before blanks. -/
theorem kind_read_of_unterminated {lineStart : Bool} {c : Char} {cs e : List Char}
    (he : BlankInLine e) (hkind : (read lineStart c cs).kind = .illegal)
    (htext : String.ofList (read lineStart c cs).text = Token.unterminated) :
    (read lineStart c (cs ++ e)).kind = .illegal := by
  obtain ⟨hrest, body, hsource⟩ := (spelling_read lineStart c cs).unterminated hkind htext
  have happend := source_append_rest lineStart c cs
  rw [hrest, hsource, List.append_nil] at happend
  obtain rfl : '"' = c := (List.cons.inj happend).1
  rw [read_quote] at hkind ⊢
  have hopen : ∀ d ∈ cs, (d != '"') = true := by
    cases hdrop : cs.dropWhile (· != '"') with
    | nil => exact List.dropWhile_eq_nil_iff.mp hdrop
    | cons quote rest =>
      unfold string at hkind
      rw [hdrop] at hkind
      cases hkind
  have hblank : ∀ d ∈ e, (d != '"') = true := by
    intro d hd
    exact bne_iff_ne.mpr (Text.ne_of_isBlank (he d hd).1 (by decide))
  have hdrop : (cs ++ e).dropWhile (· != '"') = [] :=
    List.dropWhile_eq_nil_iff.mpr (List.forall_mem_append.mpr ⟨hopen, hblank⟩)
  unfold string
  rw [hdrop]

end Lexeme

namespace Position

/-- The place some columns to the right. -/
def right (n : Nat) (p : Position) : Position :=
  ⟨p.line, p.column + n⟩

theorem goesAlong_right (n : Nat) {cs : List Char} (h : '\n' ∉ cs) : GoesAlong (right n) cs := by
  intro c hc p
  have hne : c ≠ '\n' := fun hc' => h (hc' ▸ hc)
  simp [advance, hne, right, Nat.add_right_comm]

theorem after_eq_right {cs : List Char} (h : '\n' ∉ cs) (p : Position) :
    p.after cs = p.right cs.length := by
  induction cs generalizing p with
  | nil => rfl
  | cons c cs ih =>
    rw [List.mem_cons, not_or] at h
    rw [after_cons, ih h.2, advance, if_neg (Ne.symm h.1)]
    simp [right, Nat.add_comm, Nat.add_left_comm]

end Position

namespace Scanner

variable {s : Scanner} {e : List Char}

theorem isBlank_of_isGap {c : Char} (h : isGap c = true) : Text.isBlank c = true := by
  rcases Bool.or_eq_true_iff.mp h with hspace | hnewline
  · exact (isBlank_of_isSpace hspace).1
  · obtain rfl := beq_iff_eq.mp hnewline
    decide

/-- A scanner reads only legal tokens. -/
def Legal (s : Scanner) : Prop :=
  ∀ t ∈ s.tokens, t.kind ≠ .illegal

theorem Legal.kind_next (h : s.Legal) : s.next.1.kind ≠ .illegal := by
  by_cases hend : s.next.1.kind = .endOfInput
  · simp [hend]
  · apply h
    rw [tokens_of_ne_end hend]
    exact List.mem_cons_self

theorem Legal.next (h : s.Legal) (hend : s.next.1.kind ≠ .endOfInput) : s.next.2.Legal := by
  intro t ht
  apply h
  rw [tokens_of_ne_end hend]
  exact List.mem_cons_of_mem _ ht

theorem tokens_ne_nil (s : Scanner) : s.tokens ≠ [] := by
  by_cases hend : s.next.1.kind = .endOfInput
  · simp [tokens_of_end rfl hend]
  · simp [tokens_of_ne_end hend]

theorem dropLast_tokens_of_ne_end (h : s.next.1.kind ≠ .endOfInput) :
    s.tokens.dropLast = s.next.1 :: s.next.2.tokens.dropLast := by
  rw [tokens_of_ne_end h, List.dropLast_cons_of_ne_nil (tokens_ne_nil _)]

theorem dropLast_tokens_of_end (h : s.next.1.kind = .endOfInput) : s.tokens.dropLast = [] := by
  rw [tokens_of_end rfl h]
  rfl

theorem dropLast_tokens_of_gap (hremark : s.remark = false) (h : s.skipGap.rest = []) :
    s.tokens.dropLast = [] := by
  apply dropLast_tokens_of_end
  rw [next_of_not_remark hremark, nextLexeme_of_nil h]
  rfl

/-- A scanner that comes to a blank other than those between tokens reads an illegal token. -/
theorem not_legal_of_isBlank (hremark : s.remark = false) {c : Char} {cs : List Char}
    (hrest : s.skipGap.rest = c :: cs) (hc : Text.isBlank c = true) : ¬ s.Legal := by
  intro hlegal
  apply hlegal.kind_next
  rw [next_of_not_remark hremark, nextLexeme_of_cons hrest]
  exact Lexeme.kind_read_of_isBlank hc _ cs

/-- Where only blanks are left there is no legal token. -/
theorem Legal.dropLast_tokens (hlegal : s.Legal) (hremark : s.remark = false)
    (hblank : ∀ c ∈ s.rest, Text.isBlank c = true) : s.tokens.dropLast = [] := by
  cases hrest : s.skipGap.rest with
  | nil => exact dropLast_tokens_of_gap hremark hrest
  | cons c cs =>
    have hc : c ∈ s.skipGap.rest := by simp [hrest]
    have hc : Text.isBlank c = true := hblank c ((List.dropWhile_suffix isGap).subset hc)
    exact absurd hlegal (not_legal_of_isBlank hremark hrest hc)

/-! ## Blanks behind the rest -/

/-- In the last line a remark is the last token. -/
theorem dropLast_tokens_of_remark (hremark : s.remark = true) (hnewline : '\n' ∉ s.rest) :
    s.tokens.dropLast = s.takeRemark.1.toList := by
  have hrest : s.takeRemark.2.rest = [] := by
    rw [takeRemark_of_remark hremark]
    refine List.dropWhile_eq_nil_iff.mpr fun c hc => bne_iff_ne.mpr ?_
    rintro rfl
    exact hnewline ((List.dropWhile_suffix isSpace).subset hc)
  have hgap : s.takeRemark.2.skipGap.rest = [] := by rw [skipGap_rest, hrest, List.dropWhile_nil]
  cases htake : s.takeRemark.1 with
  | none =>
    apply dropLast_tokens_of_end
    rw [next_of_none htake, nextLexeme_of_nil hgap]
    rfl
  | some t =>
    have hkind : s.next.1.kind ≠ .endOfInput := by
      simp [next_of_some htake, kind_of_takeRemark htake]
    rw [dropLast_tokens_of_ne_end hkind, next_of_some htake,
      dropLast_tokens_of_gap (remark_takeRemark s) hgap]
    rfl

theorem remarkText_eq (hnewline : '\n' ∉ s.rest) :
    s.remarkText = Text.trimEnd (s.rest.dropWhile isSpace) := by
  apply congrArg Text.trimEnd
  apply List.takeWhile_eq_self_iff.mpr
  intro c hc
  apply bne_iff_ne.mpr
  rintro rfl
  exact hnewline ((List.dropWhile_suffix isSpace).subset hc)

/-- The text of a remark ends before the blanks at the end of the line. -/
theorem takeRemark_followedBy_blanks (he : BlankInLine e) (hremark : s.remark = true)
    (hnewline : '\n' ∉ (s.followedBy e).rest) : (s.followedBy e).takeRemark.1 = s.takeRemark.1 := by
  have hremark' : (s.followedBy e).remark = true := hremark
  rw [takeRemark_of_remark hremark, takeRemark_of_remark hremark', remarkText_eq hnewline,
    remarkText_eq fun hmem => hnewline (List.mem_append_left e hmem)]
  by_cases hnil : s.rest.dropWhile isSpace = []
  · -- Only spaces come before the blanks, so there is no text whose place could matter.
    have hempty : Text.trimEnd ((s.followedBy e).rest.dropWhile isSpace) = [] := by
      apply Text.trimEnd_eq_nil_iff.mpr
      intro c hc
      rcases List.mem_append.mp ((List.dropWhile_suffix isSpace).subset hc) with hs | hmem
      · exact (isBlank_of_isSpace (List.dropWhile_eq_nil_iff.mp hnil c hs)).1
      · exact (he c hmem).1
    rw [hnil, hempty]
    rfl
  · have hdrop : (s.followedBy e).rest.dropWhile isSpace = s.rest.dropWhile isSpace ++ e :=
      dropWhile_append_of_dropWhile hnil e
    have hposition : ((s.followedBy e).skipWhile isSpace).position =
        (s.skipWhile isSpace).position :=
      congrArg s.position.after (takeWhile_append_of_dropWhile hnil e)
    rw [hdrop, Text.trimEnd_append fun c hc => (he c hc).1, hposition]

/-- Blanks can be put behind the rest or taken away again: the tokens are legal with them, or they
are spaces and the tokens are legal without them. -/
def Allows (s : Scanner) (e : List Char) : Prop :=
  (s.followedBy e).Legal ∨ s.Legal ∧ ∀ c ∈ e, isSpace c = true

/-- A string is not left open before blanks. -/
theorem Allows.not_isUnterminated (h : s.Allows e) (he : BlankInLine e)
    (hremark : s.remark = false) : ¬ s.next.1.IsUnterminated := by
  intro hopen
  rcases h with hlegal | ⟨hlegal, -⟩
  · cases hrest : s.skipGap.rest with
    | nil =>
      rw [next_of_not_remark hremark, nextLexeme_of_nil hrest] at hopen
      cases hopen.1
    | cons c cs =>
      have hgap := skipGap_followedBy s e (by simp [hrest])
      have hrest' : (s.followedBy e).skipGap.rest = c :: (cs ++ e) := by
        rw [hgap, followedBy, hrest, List.cons_append]
      rw [next_of_not_remark hremark, nextLexeme_of_cons hrest] at hopen
      apply hlegal.kind_next
      rw [next_of_not_remark (s := s.followedBy e) hremark, nextLexeme_of_cons hrest', hgap]
      exact Lexeme.kind_read_of_unterminated he hopen.1 hopen.2
  · exact hlegal.kind_next hopen.1

/-- Blanks behind a token do not change it. -/
theorem Allows.next_eq (h : s.Allows e) (he : BlankInLine e) (hremark : s.remark = false)
    (hend : s.next.1.kind ≠ .endOfInput) :
    (s.followedBy e).next = (s.next.1, s.next.2.followedBy e) := by
  have hclosed := h.not_isUnterminated he hremark
  rw [next_of_not_remark hremark] at hend hclosed ⊢
  rw [next_of_not_remark (s := s.followedBy e) hremark]
  exact nextLexeme_followedBy (Lexeme.breaks_of_blankInLine he) hend hclosed

/-- Behind the last token, blanks make no other. -/
theorem Allows.dropLast_tokens_of_gap (h : s.Allows e) (he : BlankInLine e)
    (hremark : s.remark = false) (hrest : s.skipGap.rest = []) :
    (s.followedBy e).tokens.dropLast = [] := by
  have hgap : ∀ c ∈ s.rest, isGap c = true := List.dropWhile_eq_nil_iff.mp hrest
  have hremark' : (s.followedBy e).remark = false := hremark
  rcases h with hlegal | ⟨-, hspaces⟩
  · apply hlegal.dropLast_tokens hremark'
    intro c hc
    rcases List.mem_append.mp hc with hc | hc
    · exact isBlank_of_isGap (hgap c hc)
    · exact (he c hc).1
  · apply Scanner.dropLast_tokens_of_gap hremark'
    apply List.dropWhile_eq_nil_iff.mpr
    intro c hc
    rcases List.mem_append.mp hc with hc | hc
    · exact hgap c hc
    · simp [isGap, hspaces c hc]

/-- With or without blanks at the end a line has the same tokens. -/
theorem Allows.dropLast_tokens {s : Scanner} (h : s.Allows e) (he : BlankInLine e)
    (hnewline : '\n' ∉ (s.followedBy e).rest) :
    (s.followedBy e).tokens.dropLast = s.tokens.dropLast := by
  have hnewline' : '\n' ∉ s.rest := fun hmem => hnewline (List.mem_append_left e hmem)
  cases hremark : s.remark with
  | true =>
    rw [dropLast_tokens_of_remark hremark hnewline',
      dropLast_tokens_of_remark (s := s.followedBy e) hremark hnewline,
      takeRemark_followedBy_blanks he hremark hnewline]
  | false =>
    by_cases hend : s.next.1.kind = .endOfInput
    · have hrest : s.skipGap.rest = [] := by
        rw [next_of_not_remark hremark] at hend
        exact nextLexeme_end hend
      rw [h.dropLast_tokens_of_gap he hremark hrest, Scanner.dropLast_tokens_of_gap hremark hrest]
    · have hnext := h.next_eq he hremark hend
      have hend' : (s.followedBy e).next.1.kind ≠ .endOfInput := by rwa [hnext]
      have hallows : s.next.2.Allows e := by
        refine h.imp (fun hlegal => ?_) (fun hlegal => ⟨hlegal.1.next hend, hlegal.2⟩)
        have hlegal' := hlegal.next hend'
        rwa [hnext] at hlegal'
      have hrest : '\n' ∉ (s.next.2.followedBy e).rest := by
        intro hmem
        apply hnewline
        rcases List.mem_append.mp hmem with hmem | hmem
        · exact List.mem_append_left e (mem_of_mem_next hmem)
        · exact List.mem_append_right s.rest hmem
      rw [dropLast_tokens_of_ne_end hend, dropLast_tokens_of_ne_end hend', hnext,
        hallows.dropLast_tokens he hrest]
termination_by s.rest.length
decreasing_by exact length_next_lt (by simpa [Token.isEnd] using hend)

/-! ## Spaces before the rest -/

/-- Spaces before a line move its tokens to the right. -/
theorem tokens_spaces_append {spaces cs : List Char} (hspaces : ∀ c ∈ spaces, isSpace c = true)
    (hnewline : '\n' ∉ cs) :
    ({ rest := spaces ++ cs } : Scanner).tokens =
      ({ rest := cs } : Scanner).tokens.map (Token.move (.right spaces.length)) := by
  have hgap : ∀ c ∈ spaces, isGap c = true := fun c hc => by simp [isGap, hspaces c hc]
  have hline : '\n' ∉ spaces := fun hmem => (isBlank_of_isSpace (hspaces _ hmem)).2 rfl
  have hright : Position.GoesAlong (.right spaces.length) cs := Position.goesAlong_right _ hnewline
  have htake : Position.GoesAlong (.right spaces.length) (cs.takeWhile isGap) :=
    fun c hc => hright c ((List.takeWhile_prefix isGap).subset hc)
  rw [← tokens_move hright]
  apply tokens_congr
  rw [next_of_not_remark rfl, next_of_not_remark rfl]
  apply nextLexeme_congr
  simp only [skipGap, skipWhile, move, List.takeWhile_append_of_pos hgap,
    List.dropWhile_append_of_pos hgap, Position.after_append, Position.after_eq_right hline,
    htake.after, Bool.true_or]

/-- Only spaces come before a line of legal tokens. -/
theorem isSpace_of_legal {blanks cs : List Char} (hblanks : BlankInLine blanks)
    (hlegal : ({ rest := blanks ++ cs } : Scanner).Legal) : ∀ c ∈ blanks, isSpace c = true := by
  have hgap : blanks.dropWhile isGap = [] := by
    by_contra hne
    obtain ⟨c, r, hdrop⟩ := List.exists_cons_of_ne_nil hne
    have hc : c ∈ blanks := (List.dropWhile_suffix isGap).subset (hdrop ▸ List.mem_cons_self)
    have hrest : ({ rest := blanks ++ cs } : Scanner).skipGap.rest = c :: (r ++ cs) := by
      rw [skipGap_rest, dropWhile_append_of_dropWhile hne, hdrop, List.cons_append]
    exact not_legal_of_isBlank rfl hrest (hblanks c hc).1 hlegal
  intro c hc
  have hisGap : isGap c = true := List.dropWhile_eq_nil_iff.mp hgap c hc
  simpa [isGap, (hblanks c hc).2] using hisGap

end Scanner

namespace Token

variable {l l' : String}

theorem body_append_blanks {blanks : List Char} (hl : l'.toList = l.toList ++ blanks)
    (hnewline : '\n' ∉ l'.toList) (hblanks : ∀ c ∈ blanks, Text.isBlank c = true)
      (h : (∀ t ∈ scan l', t.kind ≠ .illegal) ∨ (∀ t ∈ scan l, t.kind ≠ .illegal) ∧
      ∀ c ∈ blanks, isSpace c = true) : body l' = body l := by
  have hfollowed : Scanner.ofString l' = (Scanner.ofString l).followedBy blanks := by
    simp [Scanner.ofString, Scanner.followedBy, hl]
  have hinLine : BlankInLine blanks :=
    blankInLine_of_isBlank hblanks fun hmem => hnewline (hl ▸ List.mem_append_right _ hmem)
  have hallows : (Scanner.ofString l).Allows blanks := by
    rw [scan, hfollowed] at h
    exact h
  have hrest : '\n' ∉ ((Scanner.ofString l).followedBy blanks).rest := by
    rw [← hfollowed]
    exact hnewline
  rw [body, scan, hfollowed]
  exact hallows.dropLast_tokens hinLine hrest

theorem body_spaces_append {spaces : List Char} (hl : l'.toList = spaces ++ l.toList)
    (hspaces : ∀ c ∈ spaces, isSpace c = true) (hnewline : '\n' ∉ l.toList) :
    body l' = (body l).map (move (.right spaces.length)) := by
  have hscan : scan l' = (scan l).map (move (.right spaces.length)) := by
    rw [scan, Scanner.ofString, hl]
    exact Scanner.tokens_spaces_append hspaces hnewline
  rw [body, hscan, ← List.map_dropLast, body]

end Token

end LineBasic
