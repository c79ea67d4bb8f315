import LineBasic.Proofs.Token.Layout
import Mathlib.Data.List.DropRight

/-!
# Scanning line by line

A newline behind a text ends whatever the text left open, a string without a closing quote apart. So
the tokens of two texts with a newline between them are those of the first one, without the end
token, and those of the second one on later lines (`Scanner.tokens_followedBy`). The two halves of
this are that a newline behind the rest changes no token (`Scanner.next_followedBy_newline`), and
that a scanner at another place has its tokens at other places (`Scanner.tokens_move`). Of the
newline the first half needs only that it breaks lexemes (`Lexeme.Breaks`), as other blanks do.
-/

namespace LineBasic

section lists

variable {α : Type} {p : α → Bool} {r : List α}

theorem takeWhile_append_of_head (h : ∀ a ∈ r.head?, p a = false) (l : List α) :
    (l ++ r).takeWhile p = l.takeWhile p := by
  induction l with
  | nil =>
    cases r with
    | nil => rfl
    | cons a r => simp [h a rfl]
  | cons b l ih => cases hb : p b <;> simp [hb, ih]

theorem dropWhile_append_of_head (h : ∀ a ∈ r.head?, p a = false) (l : List α) :
    (l ++ r).dropWhile p = l.dropWhile p ++ r := by
  induction l with
  | nil =>
    cases r with
    | nil => rfl
    | cons a r => simp [h a rfl]
  | cons b l ih => cases hb : p b <;> simp [hb, ih]

theorem takeWhile_append_of_dropWhile {l : List α} (h : l.dropWhile p ≠ []) (r : List α) :
    (l ++ r).takeWhile p = l.takeWhile p := by
  rw [List.takeWhile_append, if_neg]
  intro hlength
  have hsplit := congrArg List.length (List.takeWhile_append_dropWhile (p := p) (l := l))
  rw [List.length_append] at hsplit
  exact h (List.length_eq_zero_iff.mp (by omega))

theorem dropWhile_append_of_dropWhile {l : List α} (h : l.dropWhile p ≠ []) (r : List α) :
    (l ++ r).dropWhile p = l.dropWhile p ++ r := by
  rw [List.dropWhile_append, if_neg (by simpa using h)]

end lists

namespace Text

theorem ne_of_isBlank {c d : Char} (hc : isBlank c = true) (hd : isBlank d = false) : c ≠ d := by
  rintro rfl
  rw [hc] at hd
  cases hd

theorem isDigit_of_isBlank {c : Char} (h : isBlank c = true) : c.isDigit = false := by
  rw [← Bool.not_eq_true, isDigit_iff_toNat]
  simp only [isBlank, Bool.or_eq_true, Bool.and_eq_true, decide_eq_true_eq, beq_iff_eq] at h
  omega

theorem isWordChar_of_isBlank {c : Char} (h : isBlank c = true) : isWordChar c = false := by
  have halpha : c.isAlpha = false := by
    rw [← Bool.not_eq_true, isAlpha_iff_toNat]
    simp only [isBlank, Bool.or_eq_true, Bool.and_eq_true, decide_eq_true_eq, beq_iff_eq] at h
    omega
  have hunderscore : (c == '_') = false := beq_false_of_ne (ne_of_isBlank h rfl)
  unfold isWordChar Char.isAlphanum
  rw [halpha, isDigit_of_isBlank h, hunderscore]
  rfl

end Text

namespace Lexeme

/-- A text that is no part of a lexeme before it: spaces, and then nothing, or another blank. -/
def Breaks (e : List Char) : Prop :=
  ∀ c ∈ (e.dropWhile isSpace).head?, Text.isBlank c = true

theorem breaks_newline (b : List Char) : Breaks ('\n' :: b) := by
  intro c hc
  obtain rfl : '\n' = c := by simpa [isSpace] using hc
  decide

variable {e : List Char}

theorem Breaks.isBlank_of_head (h : Breaks e) : ∀ c ∈ e.head?, Text.isBlank c = true := by
  intro c hc
  by_cases hspace : isSpace c = true
  · exact (Scanner.isBlank_of_isSpace hspace).1
  · apply h
    obtain ⟨r, rfl⟩ : ∃ r, e = c :: r := List.head?_eq_some_iff.mp hc
    simp [hspace]

theorem Breaks.isDigit_of_head (h : Breaks e) : ∀ c ∈ e.head?, c.isDigit = false :=
  fun c hc => Text.isDigit_of_isBlank (h.isBlank_of_head c hc)

theorem Breaks.isWordChar_of_head (h : Breaks e) : ∀ c ∈ e.head?, isWordChar c = false :=
  fun c hc => Text.isWordChar_of_isBlank (h.isBlank_of_head c hc)

/-- A character that is no blank does not begin a text that breaks lexemes. -/
theorem Breaks.ne_of_cons {c d : Char} {r : List Char} (h : Breaks (c :: r))
    (hd : Text.isBlank d = false) : c ≠ d :=
  Text.ne_of_isBlank (h.isBlank_of_head c rfl) hd

/-- The lexeme with more text behind the rest. -/
def followedBy (e : List Char) (l : Lexeme) : Lexeme :=
  { l with rest := l.rest ++ e }

theorem splitNumber_followedBy (he : Breaks e) (cs : List Char) :
    splitNumber (cs ++ e) = ((splitNumber cs).1, (splitNumber cs).2 ++ e) := by
  have htake := takeWhile_append_of_head he.isDigit_of_head
  have hdrop := dropWhile_append_of_head he.isDigit_of_head
  unfold splitNumber
  rw [htake, hdrop]
  -- A point at the very end has a blank behind it now, which is no digit either.
  rcases cs.dropWhile Char.isDigit with _ | ⟨c, _ | ⟨d, ds⟩⟩
  · cases e with
    | nil => rfl
    | cons c r => simp [he.ne_of_cons (d := '.') (by decide)]
  · by_cases hc : c = '.'
    · subst hc
      cases e with
      | nil => rfl
      | cons c r => simp [he.isDigit_of_head c rfl]
    · simp [hc]
  · by_cases hc : c = '.'
    · subst hc
      simp only [List.cons_append]
      split
      · rw [← List.cons_append, htake, hdrop]
      · rfl
    · simp [hc]

theorem splitWord_followedBy (he : Breaks e) (cs : List Char) :
    splitWord (cs ++ e) = ((splitWord cs).1, (splitWord cs).2 ++ e) := by
  unfold splitWord
  rw [takeWhile_append_of_head he.isWordChar_of_head,
    dropWhile_append_of_head he.isWordChar_of_head]
  rcases cs.dropWhile isWordChar with _ | ⟨c, cs⟩
  · cases e with
    | nil => rfl
    | cons c r => simp [he.ne_of_cons (d := '$') (by decide)]
  · by_cases hc : c = '$'
    · subst hc
      rfl
    · simp [hc]

theorem splitWord_of_breaks (he : Breaks e) : (splitWord e).1 = [] := by
  have hword := splitWord_followedBy he []
  exact congrArg Prod.fst hword

theorem keywordFollows_followedBy (he : Breaks e) (cs : List Char) :
    keywordFollows (cs ++ e) = keywordFollows cs := by
  rw [keywordFollows_eq, keywordFollows_eq, List.dropWhile_append]
  split
  · rename_i hnil
    have hspaces : Breaks (e.dropWhile isSpace) := by
      intro c hc
      rw [List.dropWhile_idempotent] at hc
      exact he c hc
    rw [splitWord_of_breaks hspaces, List.isEmpty_iff.mp hnil]
    rfl
  · rw [splitWord_followedBy he]

theorem number_followedBy (he : Breaks e) (lineStart : Bool) (cs : List Char) :
    number lineStart (cs ++ e) = (number lineStart cs).followedBy e := by
  simp only [number, followedBy, splitNumber_followedBy he, keywordFollows_followedBy he]

theorem word_followedBy (he : Breaks e) (cs : List Char) :
    word (cs ++ e) = (word cs).followedBy e := by
  simp only [word, followedBy, splitWord_followedBy he]

theorem symbol_followedBy (he : Breaks e) (c : Char) (cs : List Char) :
    symbol c (cs ++ e) = (symbol c cs).followedBy e := by
  cases cs with
  | nil =>
    cases e with
    | nil => rfl
    | cons d r =>
      have hequal : d ≠ '=' := he.ne_of_cons (by decide)
      have hgreater : d ≠ '>' := he.ne_of_cons (by decide)
      simp [symbol, followedBy, hequal, hgreater]
  | cons d ds =>
    simp only [List.cons_append, symbol]
    split <;> rfl

theorem startsNumber_followedBy (he : Breaks e) (c : Char) (cs : List Char) :
    startsNumber c (cs ++ e) = startsNumber c cs := by
  cases cs with
  | nil =>
    cases e with
    | nil => rfl
    | cons d r => simp [startsNumber, he.isDigit_of_head d rfl]
  | cons d ds => rfl

theorem string_of_quote {body rest : List Char} (h : ∀ c ∈ body, (c != '"') = true) :
    string (body ++ '"' :: rest) = ⟨.string, body, '"' :: body ++ ['"'], rest⟩ := by
  have htake : (body ++ '"' :: rest).takeWhile (· != '"') = body := by
    rw [List.takeWhile_append_of_pos h]
    simp
  have hdrop : (body ++ '"' :: rest).dropWhile (· != '"') = '"' :: rest := by
    rw [List.dropWhile_append_of_pos h]
    simp
  simp only [string, htake, hdrop]

/-- A string with a closing quote ends there. -/
theorem string_followedBy {cs : List Char} (h : (string cs).kind ≠ .illegal) :
    string (cs ++ e) = (string cs).followedBy e := by
  cases hdrop : cs.dropWhile (· != '"') with
  | nil =>
    simp only [string, hdrop] at h
    exact absurd rfl h
  | cons quote rest =>
    obtain rfl : quote = '"' := by simpa using head_dropWhile hdrop
    obtain ⟨body, hbody, rfl⟩ : ∃ body, (∀ c ∈ body, (c != '"') = true) ∧
        cs = body ++ '"' :: rest := by
      refine ⟨cs.takeWhile (· != '"'), fun c hc => List.mem_takeWhile_imp (p := (· != '"')) hc, ?_⟩
      rw [← hdrop, List.takeWhile_append_dropWhile]
    rw [List.append_assoc, List.cons_append, string_of_quote hbody, string_of_quote hbody]
    rfl

/-- A break behind the text changes no lexeme, unless a string is still open. -/
theorem read_followedBy (he : Breaks e) {lineStart : Bool} {c : Char} {cs : List Char}
    (h : (read lineStart c cs).kind = .illegal →
      String.ofList (read lineStart c cs).text ≠ Token.unterminated) :
    read lineStart c (cs ++ e) = (read lineStart c cs).followedBy e := by
  unfold read at h ⊢
  rw [startsNumber_followedBy he, ← List.cons_append]
  split
  · exact number_followedBy he lineStart (c :: cs)
  · rename_i hnumber
    rw [if_neg hnumber] at h
    split
    · exact word_followedBy he (c :: cs)
    · rename_i hword
      rw [if_neg hword] at h
      split
      · rename_i hquote
        rw [if_pos hquote] at h
        refine string_followedBy fun hkind => h hkind ?_
        unfold string at hkind ⊢
        dsimp only at hkind ⊢
        split at hkind
        · cases hkind
        · rfl
      · exact symbol_followedBy he c cs

end Lexeme

/-- The place some lines further down. -/
def Position.down (n : Nat) (p : Position) : Position :=
  ⟨p.line + n, p.column⟩

/-- A motion of places that goes along with the characters of a text: following the text before or
after the motion comes to the same. -/
def Position.GoesAlong (f : Position → Position) (cs : List Char) : Prop :=
  ∀ c ∈ cs, ∀ p : Position, (f p).advance c = f (p.advance c)

theorem Position.goesAlong_down (n : Nat) (cs : List Char) : GoesAlong (down n) cs := by
  intro c _ p
  unfold advance
  split
  · simp [down, Nat.add_right_comm]
  · rfl

theorem Position.GoesAlong.after {f : Position → Position} {cs : List Char} (h : GoesAlong f cs)
    (p : Position) : (f p).after cs = f (p.after cs) := by
  induction cs generalizing p with
  | nil => rfl
  | cons c cs ih =>
    obtain ⟨hc, hcs⟩ := List.forall_mem_cons.mp h
    rw [after_cons, after_cons, hc, ih hcs]

/-- The token of a string without a closing quote. -/
def Token.IsUnterminated (t : Token) : Prop :=
  t.kind = .illegal ∧ t.text = unterminated

/-- The same token at another place. -/
def Token.move (f : Position → Position) (t : Token) : Token :=
  { t with position := f t.position }

namespace Scanner

theorem next_of_none {s : Scanner} (h : s.takeRemark.1 = none) :
    s.next = s.takeRemark.2.nextLexeme := by
  unfold next
  split
  · rename_i heq
    rw [heq] at h
    cases h
  · rename_i heq
    rw [heq]

theorem next_of_some {s : Scanner} {t : Token} (h : s.takeRemark.1 = some t) :
    s.next = (t, s.takeRemark.2) := by
  unfold next
  split
  · rename_i heq
    rw [heq] at h ⊢
    rw [Option.some.inj h]
  · rename_i heq
    rw [heq] at h
    cases h

theorem next_of_not_remark {s : Scanner} (h : s.remark = false) : s.next = s.nextLexeme := by
  have htake := takeRemark_of_not_remark h
  rw [next_of_none (by rw [htake]), htake]

/-! ## Moving -/

theorem mem_of_mem_nextLexeme {s : Scanner} {c : Char} (h : c ∈ s.nextLexeme.2.rest) :
    c ∈ s.rest := by
  apply (List.dropWhile_suffix isGap).subset
  cases hrest : s.skipGap.rest with
  | nil =>
    rw [nextLexeme_of_nil hrest] at h
    exact h
  | cons d ds =>
    rw [nextLexeme_of_cons hrest] at h
    rw [← skipGap_rest, hrest, ← Lexeme.source_append_rest s.skipGap.lineStart d ds]
    exact List.mem_append_right _ h

theorem mem_of_mem_takeRemark {s : Scanner} {c : Char} (h : c ∈ s.takeRemark.2.rest) :
    c ∈ s.rest := by
  cases hremark : s.remark with
  | false =>
    rw [takeRemark_of_not_remark hremark] at h
    exact h
  | true =>
    rw [takeRemark_of_remark hremark] at h
    exact (List.dropWhile_suffix isSpace).subset ((List.dropWhile_suffix (· != '\n')).subset h)

theorem mem_of_mem_next {s : Scanner} {c : Char} (h : c ∈ s.next.2.rest) : c ∈ s.rest := by
  cases hremark : s.takeRemark.1 with
  | none =>
    rw [next_of_none hremark] at h
    exact mem_of_mem_takeRemark (mem_of_mem_nextLexeme h)
  | some t =>
    rw [next_of_some hremark] at h
    exact mem_of_mem_takeRemark h

section move

variable {f : Position → Position}

/-- The same scanner at another place. -/
def move (f : Position → Position) (s : Scanner) : Scanner :=
  { s with position := f s.position }

variable {s : Scanner} (hf : Position.GoesAlong f s.rest)
include hf

theorem skipWhile_move (p : Char → Bool) : (s.move f).skipWhile p = (s.skipWhile p).move f := by
  have htake : Position.GoesAlong f (s.rest.takeWhile p) :=
    fun c hc => hf c ((List.takeWhile_prefix p).subset hc)
  simp only [skipWhile, move, htake.after]

theorem skipGap_move : (s.move f).skipGap = s.skipGap.move f := by
  simp only [skipGap, skipWhile_move hf]
  rfl

theorem takeRemark_move :
    (s.move f).takeRemark = (s.takeRemark.1.map (Token.move f), s.takeRemark.2.move f) := by
  cases hremark : s.remark with
  | false =>
    have hmove : (s.move f).remark = false := hremark
    rw [takeRemark_of_not_remark hremark, takeRemark_of_not_remark hmove]
    rfl
  | true =>
    have hmove : (s.move f).remark = true := hremark
    have htext : (s.move f).remarkText = s.remarkText := rfl
    have hspaces : Position.GoesAlong f (s.skipWhile isSpace).rest :=
      fun c hc => hf c ((List.dropWhile_suffix isSpace).subset hc)
    rw [takeRemark_of_remark hremark, takeRemark_of_remark hmove, htext, skipWhile_move hf,
      skipWhile_move hspaces]
    cases s.remarkText <;> rfl

theorem nextLexeme_move :
    (s.move f).nextLexeme = (s.nextLexeme.1.move f, s.nextLexeme.2.move f) := by
  cases hrest : s.skipGap.rest with
  | nil =>
    have hrest' : (s.move f).skipGap.rest = [] := by rw [skipGap_move hf]; exact hrest
    rw [nextLexeme_of_nil hrest, nextLexeme_of_nil hrest', skipGap_move hf]
    rfl
  | cons c cs =>
    have hrest' : (s.move f).skipGap.rest = c :: cs := by rw [skipGap_move hf]; exact hrest
    have hsource : Position.GoesAlong f (Lexeme.read s.skipGap.lineStart c cs).source := by
      intro d hd
      apply hf
      apply (List.dropWhile_suffix isGap).subset
      rw [← skipGap_rest, hrest, ← Lexeme.source_append_rest s.skipGap.lineStart c cs]
      exact List.mem_append_left _ hd
    rw [nextLexeme_of_cons hrest, nextLexeme_of_cons hrest', skipGap_move hf]
    simp only [move, Token.move, hsource.after]
    rfl

theorem next_move : (s.move f).next = (s.next.1.move f, s.next.2.move f) := by
  have htake := takeRemark_move hf
  cases h : s.takeRemark.1 with
  | none =>
    rw [next_of_none h, next_of_none (by rw [htake, h]; rfl), htake]
    exact nextLexeme_move fun c hc => hf c (mem_of_mem_takeRemark hc)
  | some t =>
    rw [next_of_some h, next_of_some (t := t.move f) (by rw [htake, h]; rfl), htake]

end move

/-- Moving a scanner moves its tokens. -/
theorem tokens_move {f : Position → Position} {s : Scanner} (hf : Position.GoesAlong f s.rest) :
    (s.move f).tokens = s.tokens.map (Token.move f) := by
  have hnext := next_move hf
  by_cases hend : s.next.1.kind = .endOfInput
  · rw [tokens_of_end rfl hend, tokens_of_end (t := s.next.1.move f) (by rw [hnext]) hend]
    rfl
  · have hend' : (s.move f).next.1.kind ≠ .endOfInput := by
      rw [hnext]
      exact hend
    rw [tokens_of_ne_end hend, tokens_of_ne_end hend', hnext, List.map_cons,
      tokens_move (s := s.next.2) fun c hc => hf c (mem_of_mem_next hc)]
termination_by s.rest.length
decreasing_by exact length_next_lt (by simpa [Token.isEnd] using hend)

/-! ## A newline behind the rest -/

section followedBy

variable (s : Scanner) (b e : List Char)

/-- The same scanner with more text behind the rest. -/
def followedBy : Scanner :=
  { s with rest := s.rest ++ e }

theorem skipWhile_followedBy {e : List Char} {p : Char → Bool} (he : ∀ c ∈ e.head?, p c = false) :
    (s.followedBy e).skipWhile p = (s.skipWhile p).followedBy e := by
  simp only [skipWhile, followedBy, takeWhile_append_of_head he, dropWhile_append_of_head he]

theorem takeRemark_followedBy_newline :
    (s.followedBy ('\n' :: b)).takeRemark =
      (s.takeRemark.1, s.takeRemark.2.followedBy ('\n' :: b)) := by
  cases hremark : s.remark with
  | false =>
    have hfollowed : (s.followedBy ('\n' :: b)).remark = false := hremark
    rw [takeRemark_of_not_remark hremark, takeRemark_of_not_remark hfollowed]
  | true =>
    have hfollowed : (s.followedBy ('\n' :: b)).remark = true := hremark
    have hspace : (s.followedBy ('\n' :: b)).skipWhile isSpace =
        (s.skipWhile isSpace).followedBy ('\n' :: b) :=
      s.skipWhile_followedBy (by simp [isSpace])
    have hline : ((s.skipWhile isSpace).followedBy ('\n' :: b)).skipWhile (· != '\n') =
        ((s.skipWhile isSpace).skipWhile (· != '\n')).followedBy ('\n' :: b) :=
      skipWhile_followedBy _ (by simp)
    have htext : (s.followedBy ('\n' :: b)).remarkText = s.remarkText := by
      rw [remarkText, hspace, remarkText]
      exact congrArg Text.trimEnd (takeWhile_append_of_head (by simp) _)
    rw [takeRemark_of_remark hremark, takeRemark_of_remark hfollowed, htext, hspace, hline]
    rfl

theorem skipGap_followedBy (h : s.skipGap.rest ≠ []) :
    (s.followedBy e).skipGap = s.skipGap.followedBy e := by
  simp only [skipGap, skipWhile, followedBy, dropWhile_append_of_dropWhile h,
    takeWhile_append_of_dropWhile h]

/-- Where only a gap is left, the newline begins a line. -/
theorem skipGap_followedBy_of_nil (h : s.skipGap.rest = []) :
    (s.followedBy ('\n' :: b)).skipGap =
      { (({ rest := b } : Scanner).move (.down s.skipGap.position.line)).skipGap with remark :=
        s.remark } := by
  have htake : s.rest.takeWhile isGap = s.rest := by
    have hsplit : s.rest.takeWhile isGap ++ s.skipGap.rest = s.rest :=
      List.takeWhile_append_dropWhile
    rwa [h, List.append_nil] at hsplit
  have hall : ∀ c ∈ s.rest, isGap c = true := fun c hc => List.mem_takeWhile_imp (htake ▸ hc)
  have hgap : isGap '\n' = true := by decide
  have hadvance : (s.position.after s.rest).advance '\n' = ({ rest := b } : Scanner).position.down
      (s.position.after s.rest).line := by
    simp [Position.advance, Position.down, Position.start, Nat.add_comm]
  simp only [skipGap, skipWhile, followedBy, move, List.takeWhile_append_of_pos hall,
    List.dropWhile_append_of_pos hall, List.takeWhile_cons_of_pos hgap,
      List.dropWhile_cons_of_pos hgap,
    Position.after_append, Position.after_cons, htake, hadvance]
  simp

theorem remark_takeRemark : s.takeRemark.2.remark = false := by
  cases hremark : s.remark with
  | false => rw [takeRemark_of_not_remark hremark, hremark]
  | true => rw [takeRemark_of_remark hremark]

variable {s e}

theorem kind_of_takeRemark {t : Token} (h : s.takeRemark.1 = some t) : t.kind = .string := by
  cases hremark : s.remark with
  | false =>
    rw [takeRemark_of_not_remark hremark] at h
    cases h
  | true =>
    rw [takeRemark_of_remark hremark] at h
    dsimp only at h
    split at h
    · cases h
    · exact Option.some.inj h ▸ rfl

theorem nextLexeme_congr {s' : Scanner} (h : s.skipGap = s'.skipGap) :
    s.nextLexeme = s'.nextLexeme := by
  unfold nextLexeme
  rw [h]

theorem nextLexeme_followedBy (he : Lexeme.Breaks e) (hend : s.nextLexeme.1.kind ≠ .endOfInput)
    (h : ¬ s.nextLexeme.1.IsUnterminated) :
    (s.followedBy e).nextLexeme = (s.nextLexeme.1, s.nextLexeme.2.followedBy e) := by
  cases hrest : s.skipGap.rest with
  | nil =>
    rw [nextLexeme_of_nil hrest] at hend
    exact absurd rfl hend
  | cons c cs =>
    have hgap := s.skipGap_followedBy e (hrest ▸ List.cons_ne_nil c cs)
    have hrest' : (s.followedBy e).skipGap.rest = c :: (cs ++ e) := by
      rw [hgap, followedBy, hrest, List.cons_append]
    rw [nextLexeme_of_cons hrest] at h ⊢
    have hread := Lexeme.read_followedBy he fun hkind htext => h ⟨hkind, htext⟩
    rw [nextLexeme_of_cons hrest', hgap]
    simp only [followedBy, hread, Lexeme.followedBy]

/-- A newline behind the rest changes no token. -/
theorem next_followedBy_newline (hend : s.next.1.kind ≠ .endOfInput)
    (h : ¬ s.next.1.IsUnterminated) :
    (s.followedBy ('\n' :: b)).next = (s.next.1, s.next.2.followedBy ('\n' :: b)) := by
  have htake := s.takeRemark_followedBy_newline b
  cases hremark : s.takeRemark.1 with
  | none =>
    rw [next_of_none hremark] at hend h ⊢
    rw [next_of_none (by rw [htake, hremark]), htake]
    exact nextLexeme_followedBy (Lexeme.breaks_newline b) hend h
  | some t => rw [next_of_some hremark, next_of_some (by rw [htake, hremark]), htake]

theorem nextLexeme_end (h : s.nextLexeme.1.kind = .endOfInput) : s.skipGap.rest = [] := by
  cases hrest : s.skipGap.rest with
  | nil => rfl
  | cons c cs =>
    rw [nextLexeme_of_cons hrest] at h
    exact absurd h (Lexeme.spelling_read _ c cs).kind_ne_end

/-- Behind the last token the scanner goes on as at the start of a line. -/
theorem next_followedBy_of_end (hend : s.next.1.kind = .endOfInput) :
    (s.followedBy ('\n' :: b)).next =
      (({ rest := b } : Scanner).move (.down s.next.1.line)).next := by
  have htake := s.takeRemark_followedBy_newline b
  have hstart : ∀ n, (({ rest := b } : Scanner).move (.down n)).next =
      (({ rest := b } : Scanner).move (.down n)).nextLexeme :=
    fun n => next_of_not_remark rfl
  cases hremark : s.takeRemark.1 with
  | none =>
    rw [next_of_none hremark] at hend ⊢
    have hrest := nextLexeme_end hend
    rw [next_of_none (by rw [htake, hremark]), htake, hstart, nextLexeme_of_nil hrest]
    apply nextLexeme_congr
    rw [skipGap_followedBy_of_nil _ b hrest, remark_takeRemark]
    rfl
  | some t =>
    rw [next_of_some hremark] at hend
    rw [kind_of_takeRemark hremark] at hend
    cases hend

end followedBy

theorem next_eq_endAt {s : Scanner} (hend : s.next.1.kind = .endOfInput) :
    s.next.1 = .endAt s.next.1.position := by
  cases hremark : s.takeRemark.1 with
  | none =>
    rw [next_of_none hremark] at hend ⊢
    rw [nextLexeme_of_nil (nextLexeme_end hend)]
    rfl
  | some t =>
    rw [next_of_some hremark] at hend
    rw [kind_of_takeRemark hremark] at hend
    cases hend

theorem tokens_congr {s s' : Scanner} (h : s.next = s'.next) : s.tokens = s'.tokens := by
  rw [tokens.eq_def s, tokens.eq_def s', h]

/-- The tokens of two texts with a newline between them. -/
theorem tokens_followedBy (s : Scanner) (b : List Char) (h : ∀ t ∈ s.tokens, ¬ t.IsUnterminated) :
    ∃ ts position, s.tokens = ts ++ [.endAt position] ∧
      (s.followedBy ('\n' :: b)).tokens =
        ts ++ ({ rest := b } : Scanner).tokens.map (Token.move (.down position.line)) := by
  by_cases hend : s.next.1.kind = .endOfInput
  · refine ⟨[], s.next.1.position, ?_, ?_⟩
    · rw [tokens_of_end rfl hend]
      exact congrArg (List.cons · []) (next_eq_endAt hend)
    · rw [tokens_congr (next_followedBy_of_end b hend), tokens_move (Position.goesAlong_down _ b)]
      rfl
  · rw [tokens_of_ne_end hend] at h ⊢
    have hnext := next_followedBy_newline b hend (h _ List.mem_cons_self)
    obtain ⟨ts, position, hts, hrest⟩ :=
      tokens_followedBy s.next.2 b fun t ht => h t (List.mem_cons_of_mem _ ht)
    have hend' : (s.followedBy ('\n' :: b)).next.1.kind ≠ .endOfInput := by
      rw [hnext]
      exact hend
    refine ⟨s.next.1 :: ts, position, ?_, ?_⟩
    · rw [hts, List.cons_append]
    · rw [tokens_of_ne_end hend', hnext, hrest, List.cons_append]
termination_by s.rest.length
decreasing_by exact length_next_lt (by simpa [Token.isEnd] using hend)

end Scanner

end LineBasic
