import LineBasic.Proofs.Names
import LineBasic.Proofs.Token.Layout

/-!
# Tokens of a source in upper case

Putting a source in upper case changes nothing of its tokens but their texts, which are in upper
case then (`Scanner.tokens_upper`). Every test that the scanner makes is blind to case, and so is
the look-up of keywords. The texts of illegal tokens stay as they are: no letter is an illegal
character.
-/

namespace LineBasic

/-- A test of characters that does not tell upper from lower case. -/
def CaseBlind (p : Char → Bool) : Prop :=
  ∀ c : Char, p c.toUpper = p c

/-- What is no letter is the upper case of itself only. -/
theorem toUpper_eq_iff {c d : Char} (hd : d.isAlpha = false) : c.toUpper = d ↔ c = d := by
  constructor
  · rintro rfl
    rw [isAlpha_toUpper] at hd
    exact (toUpper_of_not_isAlpha hd).symm
  · rintro rfl
    exact toUpper_of_not_isAlpha hd

theorem toList_toUpper (s : String) : s.toUpper.toList = s.toList.map Char.toUpper :=
  String.toList_map

theorem toUpper_ofList (cs : List Char) :
    (String.ofList cs).toUpper = String.ofList (cs.map Char.toUpper) := by
  rw [← String.toList_inj, toList_toUpper, String.toList_ofList, String.toList_ofList]

theorem map_toUpper_of_toUpper_eq {s s' : String} (h : s'.toUpper = s.toUpper) :
    s'.toList.map Char.toUpper = s.toList.map Char.toUpper := by
  rw [← toList_toUpper, ← toList_toUpper, h]

/-- A text without letters is the upper case of itself only. -/
theorem eq_of_toUpper_eq {s s' : String} (h : s'.toUpper = s.toUpper)
    (hs : ∀ c ∈ s.toList, c.isAlpha = false) : s' = s := by
  have hself {cs : List Char} (hcs : ∀ c ∈ cs, c.isAlpha = false) : cs.map Char.toUpper = cs :=
    (List.map_congr_left fun c hc => toUpper_of_not_isAlpha (hcs c hc)).trans (List.map_id cs)
  have hlist : s'.toList.map Char.toUpper = s.toList := by
    rw [map_toUpper_of_toUpper_eq h, hself hs]
  have hs' : ∀ c ∈ s'.toList, c.isAlpha = false := by
    intro c hc
    rw [← isAlpha_toUpper]
    exact hs _ (hlist ▸ List.mem_map_of_mem hc)
  rw [← String.toList_inj, ← hlist, hself hs']

namespace CaseBlind

variable {p : Char → Bool}

/-- A test with the same answer for all letters. -/
theorem of_letters {b : Bool} (h : ∀ c : Char, c.isAlpha = true → p c = b) : CaseBlind p := by
  intro c
  cases hc : c.isAlpha with
  | true => rw [h c hc, h c.toUpper (by rwa [isAlpha_toUpper])]
  | false => rw [toUpper_of_not_isAlpha hc]

theorem beq {d : Char} (hd : d.isAlpha = false) : CaseBlind (· == d) := by
  intro c
  rw [Bool.eq_iff_iff, beq_iff_eq, beq_iff_eq, toUpper_eq_iff hd]

theorem bne {d : Char} (hd : d.isAlpha = false) : CaseBlind (· != d) :=
  fun c => congrArg not (beq hd c)

theorem or {q : Char → Bool} (hp : CaseBlind p) (hq : CaseBlind q) :
    CaseBlind fun c => p c || q c := by
  intro c
  dsimp only
  rw [hp, hq]

theorem isSpace : CaseBlind isSpace :=
  ((beq rfl).or (beq rfl)).or (beq rfl)

theorem isGap : CaseBlind isGap :=
  isSpace.or (beq rfl)

theorem isDigit : CaseBlind Char.isDigit :=
  of_letters fun _ => isDigit_of_isAlpha

theorem isWordStart : CaseBlind isWordStart :=
  CaseBlind.or isAlpha_toUpper (beq rfl)

theorem isWordChar : CaseBlind isWordChar :=
  (CaseBlind.or isAlpha_toUpper isDigit).or (beq rfl)

theorem isBlank : CaseBlind Text.isBlank :=
  of_letters (b := false) fun c hc => by
    rw [isAlpha_iff_toNat] at hc
    rw [← Bool.not_eq_true]
    intro h
    simp only [Text.isBlank, Bool.or_eq_true, Bool.and_eq_true, decide_eq_true_eq, beq_iff_eq] at h
    omega

theorem takeWhile (h : CaseBlind p) (cs : List Char) :
    (cs.map Char.toUpper).takeWhile p = (cs.takeWhile p).map Char.toUpper := by
  rw [List.takeWhile_map, show p ∘ Char.toUpper = p from funext h]

theorem dropWhile (h : CaseBlind p) (cs : List Char) :
    (cs.map Char.toUpper).dropWhile p = (cs.dropWhile p).map Char.toUpper := by
  rw [List.dropWhile_map, show p ∘ Char.toUpper = p from funext h]

end CaseBlind

theorem Text.trimEnd_map_toUpper (cs : List Char) :
    trimEnd (cs.map Char.toUpper) = (trimEnd cs).map Char.toUpper := by
  rw [trimEnd, ← List.map_reverse, CaseBlind.isBlank.dropWhile, ← List.map_reverse, trimEnd]

theorem Position.after_map_toUpper (p : Position) (cs : List Char) :
    p.after (cs.map Char.toUpper) = p.after cs := by
  induction cs generalizing p with
  | nil => rfl
  | cons c cs ih =>
    have hc : p.advance c.toUpper = p.advance c := by
      simp only [advance, toUpper_eq_iff (d := '\n') rfl]
    rw [List.map_cons, after_cons, after_cons, hc, ih]

theorem Keyword.ofText?_map_toUpper (cs : List Char) :
    ofText? (String.ofList (cs.map Char.toUpper)) = ofText? (String.ofList cs) := by
  unfold ofText?
  rw [← toUpper_ofList, toUpper_toUpper]

namespace Lexeme

/-- A lexeme of a source in upper case. The text of an illegal lexeme does not come from letters. -/
def upper (l : Lexeme) : Lexeme where
  kind := l.kind
  text := if l.kind = .illegal then l.text else l.text.map Char.toUpper
  source := l.source.map Char.toUpper
  rest := l.rest.map Char.toUpper

theorem upper_of_legal {l : Lexeme} (h : l.kind ≠ .illegal) :
    l.upper =
      ⟨l.kind, l.text.map Char.toUpper, l.source.map Char.toUpper, l.rest.map Char.toUpper⟩ := by
  rw [upper, if_neg h]

theorem splitWord_map_toUpper (cs : List Char) :
    splitWord (cs.map Char.toUpper) =
      ((splitWord cs).1.map Char.toUpper, (splitWord cs).2.map Char.toUpper) := by
  unfold splitWord
  rw [CaseBlind.isWordChar.takeWhile, CaseBlind.isWordChar.dropWhile]
  cases cs.dropWhile isWordChar with
  | nil => rfl
  | cons c rest =>
    by_cases hc : c = '$'
    · subst hc
      simp [toUpper_of_not_isAlpha]
    · have hupper : c.toUpper ≠ '$' := by rwa [ne_eq, toUpper_eq_iff rfl]
      simp [hc, hupper]

theorem splitNumber_map_toUpper (cs : List Char) :
    splitNumber (cs.map Char.toUpper) =
      ((splitNumber cs).1.map Char.toUpper, (splitNumber cs).2.map Char.toUpper) := by
  unfold splitNumber
  rw [CaseBlind.isDigit.takeWhile, CaseBlind.isDigit.dropWhile]
  cases cs.dropWhile Char.isDigit with
  | nil => rfl
  | cons c rest =>
    by_cases hc : c = '.'
    · subst hc
      cases rest with
      | nil => rfl
      | cons d rest =>
        have htail : d.toUpper :: rest.map Char.toUpper = (d :: rest).map Char.toUpper := rfl
        have hpoint : '.'.toUpper = '.' := rfl
        simp only [List.map_cons, hpoint, CaseBlind.isDigit d]
        split
        · rw [htail, CaseBlind.isDigit.takeWhile, CaseBlind.isDigit.dropWhile, List.map_append,
            List.map_cons, hpoint]
        · rfl
    · have hupper : c.toUpper ≠ '.' := by rwa [ne_eq, toUpper_eq_iff rfl]
      simp [hc, hupper]

theorem keywordFollows_map_toUpper (cs : List Char) :
    keywordFollows (cs.map Char.toUpper) = keywordFollows cs := by
  rw [keywordFollows_eq, keywordFollows_eq, CaseBlind.isSpace.dropWhile, splitWord_map_toUpper,
    Keyword.ofText?_map_toUpper]

theorem number_upper (lineStart : Bool) (cs : List Char) :
    number lineStart (cs.map Char.toUpper) = (number lineStart cs).upper := by
  have hlegal : (number lineStart cs).kind ≠ .illegal := by
    unfold number
    dsimp only
    split <;> exact Kind.noConfusion
  rw [upper_of_legal hlegal]
  unfold number
  rw [splitNumber_map_toUpper]
  dsimp only
  rw [keywordFollows_map_toUpper]

theorem word_upper (cs : List Char) : word (cs.map Char.toUpper) = (word cs).upper := by
  have hlegal : (word cs).kind ≠ .illegal := by
    unfold word
    dsimp only
    split <;> exact Kind.noConfusion
  rw [upper_of_legal hlegal]
  unfold word
  rw [splitWord_map_toUpper]
  dsimp only
  rw [Keyword.ofText?_map_toUpper]

theorem string_upper (cs : List Char) : string (cs.map Char.toUpper) = (string cs).upper := by
  unfold string
  rw [(CaseBlind.bne rfl).takeWhile, (CaseBlind.bne rfl).dropWhile]
  cases cs.dropWhile (· != '"') with
  | nil => rfl
  | cons quote rest => simp [upper, toUpper_of_not_isAlpha]

theorem symbol_of_isAlpha {c d : Char} (hd : d.isAlpha = true) (cs : List Char) :
    symbol c (d :: cs) = ⟨symbolKind c, [c], [c], d :: cs⟩ := by
  have hequal : d ≠ '=' := by rintro rfl; cases hd
  have hgreater : d ≠ '>' := by rintro rfl; cases hd
  simp [symbol, hequal, hgreater]

theorem symbol_upper {c : Char} (hc : c.isAlpha = false) (cs : List Char) :
    symbol c (cs.map Char.toUpper) = (symbol c cs).upper := by
  have hupper : ∀ kind, (⟨kind, [c], [c], cs⟩ : Lexeme).upper =
      ⟨kind, [c], [c], cs.map Char.toUpper⟩ := by
    simp [upper, toUpper_of_not_isAlpha hc]
  cases cs with
  | nil => exact (hupper _).symm
  | cons d ds =>
    cases hd : d.isAlpha with
    | true =>
      rw [symbol_of_isAlpha hd, hupper, List.map_cons, symbol_of_isAlpha (by rwa [isAlpha_toUpper])]
    | false =>
      rw [List.map_cons, toUpper_of_not_isAlpha hd]
      dsimp only [symbol]
      split
      · rfl
      · rfl
      · rfl
      · rw [hupper, List.map_cons, toUpper_of_not_isAlpha hd]

theorem startsNumber_map_toUpper (c : Char) (cs : List Char) :
    startsNumber c.toUpper (cs.map Char.toUpper) = startsNumber c cs := by
  unfold startsNumber
  have hpoint : (c.toUpper == '.') = (c == '.') := CaseBlind.beq rfl c
  rw [CaseBlind.isDigit, hpoint]
  cases cs with
  | nil => rfl
  | cons d ds => simp [CaseBlind.isDigit d]

theorem read_upper (lineStart : Bool) (c : Char) (cs : List Char) :
    read lineStart c.toUpper (cs.map Char.toUpper) = (read lineStart c cs).upper := by
  unfold read
  rw [startsNumber_map_toUpper, CaseBlind.isWordStart, ← List.map_cons]
  split
  · exact number_upper lineStart (c :: cs)
  · split
    · exact word_upper (c :: cs)
    · rename_i hword
      have hc : c.isAlpha = false := by
        simp only [isWordStart, Bool.or_eq_true, not_or, Bool.not_eq_true] at hword
        exact hword.1
      -- What begins neither a number nor a word is no letter, and is its own upper case.
      rw [toUpper_of_not_isAlpha hc]
      split
      · exact string_upper cs
      · exact symbol_upper hc cs

end Lexeme

/-- A token of a source in upper case. -/
def Token.upper (t : Token) : Token :=
  if t.kind = .illegal then t else { t with text := t.text.toUpper }

theorem Token.upper_of_legal {t : Token} (h : t.kind ≠ .illegal) :
    t.upper = { t with text := t.text.toUpper } :=
  if_neg h

theorem Token.kind_upper (t : Token) : t.upper.kind = t.kind := by
  unfold upper
  split <;> rfl

theorem Token.position_upper (t : Token) : t.upper.position = t.position := by
  unfold upper
  split <;> rfl

theorem Token.endAt_upper (p : Position) : (endAt p).upper = endAt p := by
  have hempty : "".toUpper = "" := by with_unfolding_all rfl
  rw [upper_of_legal Kind.noConfusion]
  unfold endAt
  rw [hempty]

theorem Lexeme.token_upper (l : Lexeme) (position : Position) :
    (⟨l.upper.kind, String.ofList l.upper.text, position⟩ : Token) =
      Token.upper ⟨l.kind, String.ofList l.text, position⟩ := by
  unfold upper Token.upper
  dsimp only
  split
  · rfl
  · rw [toUpper_ofList]

namespace Scanner

/-- A scanner of a source in upper case. -/
def upper (s : Scanner) : Scanner :=
  { s with rest := s.rest.map Char.toUpper }

theorem skipWhile_upper {p : Char → Bool} (hp : CaseBlind p) (s : Scanner) :
    s.upper.skipWhile p = (s.skipWhile p).upper := by
  unfold skipWhile upper
  dsimp only
  rw [hp.takeWhile, hp.dropWhile, Position.after_map_toUpper]

theorem skipGap_upper (s : Scanner) : s.upper.skipGap = s.skipGap.upper := by
  have hnewline (cs : List Char) : (cs.map Char.toUpper).contains '\n' = cs.contains '\n' := by
    rw [Bool.eq_iff_iff]
    simp [toUpper_eq_iff (d := '\n') rfl]
  unfold skipGap
  rw [skipWhile_upper CaseBlind.isGap]
  dsimp only [upper]
  rw [CaseBlind.isGap.takeWhile, hnewline]

theorem takeRemark_upper (s : Scanner) :
    s.upper.takeRemark = (s.takeRemark.1.map Token.upper, s.takeRemark.2.upper) := by
  have hupper : s.upper.remark = s.remark := rfl
  cases hremark : s.remark with
  | false =>
    rw [takeRemark_of_not_remark hremark, takeRemark_of_not_remark (hupper.trans hremark)]
    rfl
  | true =>
    have htext : s.upper.remarkText = s.remarkText.map Char.toUpper := by
      unfold remarkText
      rw [skipWhile_upper CaseBlind.isSpace]
      dsimp only [upper]
      rw [(CaseBlind.bne rfl).takeWhile, Text.trimEnd_map_toUpper]
    rw [takeRemark_of_remark hremark, takeRemark_of_remark (hupper.trans hremark), htext,
      skipWhile_upper CaseBlind.isSpace, skipWhile_upper (CaseBlind.bne rfl), List.isEmpty_map]
    dsimp only
    split
    · rfl
    · rw [Option.map_some, Token.upper_of_legal Kind.noConfusion, toUpper_ofList]
      rfl

theorem nextLexeme_upper (s : Scanner) :
    s.upper.nextLexeme = (s.nextLexeme.1.upper, s.nextLexeme.2.upper) := by
  have hgap := skipGap_upper s
  cases hrest : s.skipGap.rest with
  | nil =>
    have hupper : s.upper.skipGap.rest = [] := by rw [hgap, upper, hrest, List.map_nil]
    rw [nextLexeme_of_nil hrest, nextLexeme_of_nil hupper, hgap, Token.endAt_upper]
    rfl
  | cons c cs =>
    have hupper : s.upper.skipGap.rest = c.toUpper :: cs.map Char.toUpper := by
      rw [hgap, upper, hrest, List.map_cons]
    have hread := Lexeme.read_upper s.skipGap.upper.lineStart c cs
    rw [nextLexeme_of_cons hrest, nextLexeme_of_cons hupper, hgap, hread]
    generalize hl : Lexeme.read s.skipGap.upper.lineStart c cs = l
    have hl' : Lexeme.read s.skipGap.lineStart c cs = l := hl
    rw [hl', Lexeme.token_upper]
    dsimp only [upper, Lexeme.upper]
    rw [Position.after_map_toUpper]
    rfl

theorem next_upper (s : Scanner) : s.upper.next = (s.next.1.upper, s.next.2.upper) := by
  unfold next
  rw [takeRemark_upper]
  rcases s.takeRemark with ⟨_ | t, s'⟩
  · exact nextLexeme_upper s'
  · rfl

/-- The tokens of a source in upper case are those of the source, with their texts in upper case. -/
theorem tokens_upper (s : Scanner) : s.upper.tokens = s.tokens.map Token.upper := by
  by_cases hend : s.next.1.kind = .endOfInput
  · have hnext : s.upper.next.1 = s.next.1.upper := by rw [next_upper]
    rw [tokens_of_end rfl hend, tokens_of_end hnext (by rw [Token.kind_upper, hend])]
    rfl
  · have hupper : s.upper.next.1.kind ≠ .endOfInput := by
      rw [next_upper, Token.kind_upper]
      exact hend
    rw [tokens_of_ne_end hend, tokens_of_ne_end hupper, next_upper, List.map_cons,
      tokens_upper s.next.2]
termination_by s.rest.length
decreasing_by exact length_next_lt (by simpa [Token.isEnd] using hend)

end Scanner

end LineBasic
