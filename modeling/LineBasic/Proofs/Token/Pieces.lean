import LineBasic.Proofs.Number.Written
import LineBasic.Proofs.Token.Spelled

/-!
# Texts that are put together from words

A line of source text can be put together from words with blanks between them. `Kind.Form` says
which texts are words of a kind, and `Piece.Legible` that no two words run into one another. The
tokens of such a text are its words, each where it was put (`Scanner.tokens_spell`).
-/

namespace LineBasic

/-! ## The forms of words -/

/-- A letter or an underscore, more of these and digits, and perhaps a dollar sign. -/
def IsWord (cs : List Char) : Prop :=
  ∃ c body, isWordStart c = true ∧ (∀ d ∈ body, isWordChar d = true) ∧
    (cs = c :: body ∨ cs = c :: body ++ ['$'])

/-- The text of a remark: something on one line without a space before it or a blank behind it. -/
structure IsRemark (cs : List Char) : Prop where
  ne_nil : cs ≠ []
  newline : '\n' ∉ cs
  head : ∀ c ∈ cs.head?, isSpace c = false
  trimEnd : Text.trimEnd cs = cs

/-- The texts of the tokens of a kind that stand in statements. -/
def Kind.Form : Kind → String → Prop
  | .number, s => ∃ whole fraction, s.toList = Number.pointed whole fraction ∧
      Number.IsPointed whole fraction
  | .string, s => '"' ∉ s.toList
  | .name, s => IsWord s.toList ∧ Keyword.ofText? s = none
  | .keyword k, s => s = k.text
  | .operator op, s => s = op.text
  | .leftParen, s => s = "("
  | .rightParen, s => s = ")"
  | .comma, s => s = ","
  | .semicolon, s => s = ";"
  | .endOfInput, _ | .illegal, _ | .lineNumber, _ => False

/-- How a token of a kind is written. -/
def Kind.lexeme (kind : Kind) (s : String) : List Char :=
  if kind = .string then '"' :: s.toList ++ ['"'] else s.toList

/-- Whether a character ends every word before it. -/
def isDelimiter (c : Char) : Bool :=
  c == ' ' || c == '(' || c == ')' || c == ',' || c == ';'

/-- No word goes on into this text. -/
def Delimited (rest : List Char) : Prop :=
  ∀ c ∈ rest.head?, isDelimiter c = true

theorem Delimited.forall_head {rest : List Char} {p : Char → Bool} (h : Delimited rest)
    (hp : ∀ c, isDelimiter c = true → p c = false) : ∀ c ∈ rest.head?, p c = false :=
  fun c hc => hp c (h c hc)

theorem delimited_nil : Delimited [] :=
  fun _ h => nomatch h

theorem Delimited.append {cs ds : List Char} (hcs : Delimited cs) (hds : Delimited ds) :
    Delimited (cs ++ ds) := by
  cases cs with
  | nil => exact hds
  | cons c cs => exact hcs

theorem cases_of_isDelimiter {c : Char} (h : isDelimiter c = true) :
    c = ' ' ∨ c = '(' ∨ c = ')' ∨ c = ',' ∨ c = ';' := by
  simpa [isDelimiter, or_assoc] using h

theorem isWord_keyword (k : Keyword) : IsWord k.text.toList := by
  obtain ⟨c, body, htext, hc, hbody⟩ :
      ∃ c body, k.text.toList = c :: body ∧ isWordStart c = true ∧ body.all isWordChar = true := by
    cases k <;> exact ⟨_, _, rfl, rfl, rfl⟩
  exact ⟨c, body, hc, List.all_eq_true.mp hbody, .inl htext⟩

theorem ofText?_keyword (k : Keyword) : Keyword.ofText? k.text = some k := by
  cases k <;> decide +kernel

theorem startsNumber_of_isWordStart {c : Char} (h : isWordStart c = true) (cs : List Char) :
    Lexeme.startsNumber c cs = false := by
  have hdigit : c.isDigit = false := by
    rw [isWordStart, Bool.or_eq_true, beq_iff_eq] at h
    rcases h with halpha | rfl
    · exact isDigit_of_isAlpha halpha
    · rfl
  have hpoint : c ≠ '.' := by
    rintro rfl
    cases h
  simp [Lexeme.startsNumber, hdigit, hpoint]

namespace Lexeme

variable {rest : List Char}

/-- The longest beginning of a text for which `p` holds, and the rest. -/
theorem takeWhile_dropWhile_append {p : Char → Bool} {cs : List Char} (hcs : ∀ c ∈ cs, p c = true)
    (hrest : ∀ c ∈ rest.head?, p c = false) :
    (cs ++ rest).takeWhile p = cs ∧ (cs ++ rest).dropWhile p = rest := by
  constructor
  · rw [takeWhile_append_of_head hrest, List.takeWhile_eq_self_iff.mpr hcs]
  · rw [dropWhile_append_of_head hrest, List.dropWhile_eq_nil_iff.mpr hcs, List.nil_append]

theorem splitNumber_pointed {whole fraction : List Char} (hwhole : ∀ c ∈ whole, c.isDigit = true)
    (hfraction : ∀ c ∈ fraction, c.isDigit = true) (hrest : Delimited rest) :
    splitNumber (Number.pointed whole fraction ++ rest) =
      (Number.pointed whole fraction, rest) := by
  have hdigit : ∀ c ∈ rest.head?, c.isDigit = false := by
    apply hrest.forall_head
    intro c hc
    rcases cases_of_isDelimiter hc with rfl | rfl | rfl | rfl | rfl <;> decide
  cases fraction with
  | nil =>
    obtain ⟨htake, hdrop⟩ := takeWhile_dropWhile_append hwhole hdigit
    simp only [Number.pointed, List.isEmpty_nil, ↓reduceIte, splitNumber, htake, hdrop]
    split
    · exact Bool.noConfusion (hrest '.' rfl)
    · rfl
  | cons d ds =>
    have hd : d.isDigit = true := hfraction d List.mem_cons_self
    have hpoint : ∀ c ∈ ('.' :: (d :: ds ++ rest)).head?, c.isDigit = false := by simp
    obtain ⟨htake, hdrop⟩ := takeWhile_dropWhile_append hwhole hpoint
    obtain ⟨htake', hdrop'⟩ := takeWhile_dropWhile_append hfraction hdigit
    simp only [List.cons_append] at htake hdrop htake' hdrop'
    simp [Number.pointed, splitNumber, htake, hdrop, hd, htake', hdrop']

theorem splitWord_of_isWord {cs : List Char} (h : IsWord cs) (hrest : Delimited rest) :
    splitWord (cs ++ rest) = (cs, rest) := by
  have hword : ∀ c ∈ rest.head?, isWordChar c = false := by
    apply hrest.forall_head
    intro c hc
    rcases cases_of_isDelimiter hc with rfl | rfl | rfl | rfl | rfl <;> decide
  obtain ⟨c, body, hc, hbody, rfl | rfl⟩ := h
  all_goals have hcs : ∀ d ∈ c :: body, isWordChar d = true :=
    List.forall_mem_cons.mpr ⟨isWordChar_of_isWordStart hc, hbody⟩
  · obtain ⟨htake, hdrop⟩ := takeWhile_dropWhile_append hcs hword
    simp only [splitWord, htake, hdrop]
    split
    · exact Bool.noConfusion (hrest '$' rfl)
    · rfl
  · have hdollar : ∀ c ∈ ('$' :: rest).head?, isWordChar c = false := by simp [isWordChar]
    obtain ⟨htake, hdrop⟩ := takeWhile_dropWhile_append hcs hdollar
    rw [List.append_assoc, List.singleton_append, splitWord, htake, hdrop]
    rfl

theorem symbol_of_delimited (c : Char) (hrest : Delimited rest) :
    symbol c rest = ⟨symbolKind c, [c], [c], rest⟩ := by
  cases rest with
  | nil => rfl
  | cons d ds =>
    rcases cases_of_isDelimiter (hrest d rfl) with rfl | rfl | rfl | rfl | rfl <;> simp [symbol]

theorem isGap_of_isWordStart {c : Char} (h : isWordStart c = true) : isGap c = false := by
  by_contra hgap
  rw [Bool.not_eq_false, isGap, isSpace] at hgap
  simp only [Bool.or_eq_true, beq_iff_eq] at hgap
  rcases hgap with ((rfl | rfl) | rfl) | rfl <;> cases h

theorem isGap_of_isDigit {c : Char} (h : c.isDigit = true) : isGap c = false := by
  by_contra hgap
  rw [Bool.not_eq_false, isGap, isSpace] at hgap
  simp only [Bool.or_eq_true, beq_iff_eq] at hgap
  rcases hgap with ((rfl | rfl) | rfl) | rfl <;> cases h

/-- What is read from here on is a word of a kind. -/
def Reads (kind : Kind) (text : String) (rest : List Char) : Prop :=
  ∃ c cs, kind.lexeme text = c :: cs ∧ isGap c = false ∧
    read false c (cs ++ rest) = ⟨kind, text.toList, c :: cs, rest⟩

theorem reads_word {kind : Kind} {text : String} (h : IsWord text.toList) (hrest : Delimited rest)
    (hkind : (match Keyword.ofText? text with | some k => .keyword k | none => .name) = kind) :
    Reads kind text rest := by
  obtain ⟨c, cs, htext, hc⟩ : ∃ c cs, text.toList = c :: cs ∧ isWordStart c = true := by
    obtain ⟨c, body, hc, _, htext | htext⟩ := h
    · exact ⟨c, body, htext, hc⟩
    · exact ⟨c, body ++ ['$'], htext, hc⟩
  have hlexeme : kind.lexeme text = c :: cs := by
    rw [← htext, Kind.lexeme, if_neg]
    rintro rfl
    split at hkind <;> cases hkind
  refine ⟨c, cs, hlexeme, isGap_of_isWordStart hc, ?_⟩
  rw [read, startsNumber_of_isWordStart hc, if_neg Bool.false_ne_true, if_pos hc,
    ← List.cons_append, word, ← htext, splitWord_of_isWord h hrest]
  dsimp only
  rw [String.ofList_toList]
  exact congrArg (Lexeme.mk · text.toList text.toList rest) hkind

theorem exists_read_number {whole fraction : List Char} {text : String}
    (htext : text.toList = Number.pointed whole fraction) (h : Number.IsPointed whole fraction)
    (hrest : Delimited rest) (lineStart : Bool) :
    ∃ c cs, text.toList = c :: cs ∧ isGap c = false ∧ read lineStart c (cs ++ rest) =
      ⟨if lineStart && keywordFollows rest then .lineNumber else .number, text.toList,
        c :: cs, rest⟩ := by
  obtain ⟨c, cs, hcons, hc⟩ := h.exists_cons
  have hstarts : startsNumber c (cs ++ rest) = true := by rw [startsNumber, hc, Bool.true_or]
  refine ⟨c, cs, htext.trans hcons, isGap_of_isDigit hc, ?_⟩
  rw [read, if_pos hstarts, ← List.cons_append, ← hcons, number,
    splitNumber_pointed h.whole h.fraction hrest, htext]

theorem reads_number {whole fraction : List Char} {text : String}
    (htext : text.toList = Number.pointed whole fraction) (h : Number.IsPointed whole fraction)
    (hrest : Delimited rest) : Reads .number text rest :=
  exists_read_number htext h hrest false

theorem reads_string {text : String} (h : '"' ∉ text.toList) : Reads .string text rest := by
  refine ⟨'"', text.toList ++ ['"'], rfl, by decide, ?_⟩
  have hbody : ∀ c ∈ text.toList, (c != '"') = true := by
    intro c hc
    apply bne_iff_ne.mpr
    rintro rfl
    exact h hc
  have hread : ∀ cs, read false '"' cs = string cs := fun cs => rfl
  rw [hread, List.append_assoc, List.singleton_append, string_of_quote hbody]
  rfl

theorem reads_symbol (c : Char) {text : String} (htext : text.toList = [c])
    (hgap : isGap c = false) (hnumber : startsNumber c rest = false)
    (hword : isWordStart c = false) (hquote : c ≠ '"')
    (hsymbol : symbol c rest = ⟨symbolKind c, [c], [c], rest⟩) :
    Reads (symbolKind c) text rest := by
  refine ⟨c, [], ?_, hgap, ?_⟩
  · rw [Kind.lexeme, if_neg (symbolKind_ne c).2.1, htext]
  · rw [List.nil_append, htext, read, hnumber, hword, if_neg Bool.false_ne_true,
      if_neg Bool.false_ne_true, if_neg hquote, hsymbol]

theorem reads_operator (op : Operator) (hrest : Delimited rest) :
    Reads (.operator op) op.text rest := by
  have hsymbol : ∀ c, symbol c rest = ⟨symbolKind c, [c], [c], rest⟩ :=
    fun c => symbol_of_delimited c hrest
  cases op with
  | power => exact reads_symbol '^' rfl rfl rfl rfl (by decide) (hsymbol _)
  | multiply => exact reads_symbol '*' rfl rfl rfl rfl (by decide) (hsymbol _)
  | divide => exact reads_symbol '/' rfl rfl rfl rfl (by decide) (hsymbol _)
  | add => exact reads_symbol '+' rfl rfl rfl rfl (by decide) (hsymbol _)
  | subtract => exact reads_symbol '-' rfl rfl rfl rfl (by decide) (hsymbol _)
  | equal => exact reads_symbol '=' rfl rfl rfl rfl (by decide) (hsymbol _)
  | less => exact reads_symbol '<' rfl rfl rfl rfl (by decide) (hsymbol _)
  | greater => exact reads_symbol '>' rfl rfl rfl rfl (by decide) (hsymbol _)
  | notEqual => exact ⟨'<', ['>'], rfl, rfl, rfl⟩
  | lessEqual => exact ⟨'<', ['='], rfl, rfl, rfl⟩
  | greaterEqual => exact ⟨'>', ['='], rfl, rfl, rfl⟩

/-- A word of a kind is read as a token of that kind, where no word goes on behind it. -/
theorem reads_of_form {kind : Kind} {text : String} (hform : kind.Form text)
    (hrest : kind ≠ .leftParen → Delimited rest) : Reads kind text rest := by
  cases kind with
  | endOfInput | illegal | lineNumber => exact hform.elim
  | number =>
    obtain ⟨whole, fraction, htext, h⟩ := hform
    exact reads_number htext h (hrest Kind.noConfusion)
  | string => exact reads_string hform
  | name => exact reads_word hform.1 (hrest Kind.noConfusion) (by rw [hform.2])
  | keyword k =>
    obtain rfl : text = k.text := hform
    exact reads_word (isWord_keyword k) (hrest Kind.noConfusion) (by rw [ofText?_keyword])
  | operator op =>
    obtain rfl : text = op.text := hform
    exact reads_operator op (hrest Kind.noConfusion)
  | leftParen =>
    obtain rfl : text = "(" := hform
    exact reads_symbol '(' rfl rfl rfl rfl (by decide) (by cases rest <;> rfl)
  | rightParen =>
    obtain rfl : text = ")" := hform
    exact reads_symbol ')' rfl rfl rfl rfl (by decide)
      (symbol_of_delimited _ (hrest Kind.noConfusion))
  | comma =>
    obtain rfl : text = "," := hform
    exact reads_symbol ',' rfl rfl rfl rfl (by decide)
      (symbol_of_delimited _ (hrest Kind.noConfusion))
  | semicolon =>
    obtain rfl : text = ";" := hform
    exact reads_symbol ';' rfl rfl rfl rfl (by decide)
      (symbol_of_delimited _ (hrest Kind.noConfusion))

end Lexeme

/-! ## Words with blanks between them -/

/-- What a line is put together from: blanks, words, and the text of a remark at the end. -/
inductive Piece where
  | blank
  | word (kind : Kind) (text : String)
  | remark (text : String)

namespace Piece

/-- How a piece is written. -/
def source : Piece → List Char
  | blank => [' ']
  | word kind text => kind.lexeme text
  | remark text => text.toList

/-- The token that a piece is at a place. -/
def token? (p : Position) : Piece → Option Token
  | blank => none
  | word kind text => some ⟨kind, text, p⟩
  | remark text => some ⟨.string, text, p⟩

/-- The text that pieces make up. -/
def spell (ps : List Piece) : List Char :=
  ps.flatMap source

/-- The tokens that pieces make up from a place on. -/
def tokens (p : Position) : List Piece → List Token
  | [] => []
  | x :: xs => (x.token? p).toList ++ tokens (p.after x.source) xs

@[simp] theorem spell_nil : spell [] = [] := rfl

@[simp] theorem spell_cons (x : Piece) (xs : List Piece) :
    spell (x :: xs) = x.source ++ spell xs := rfl

@[simp] theorem spell_append (xs ys : List Piece) : spell (xs ++ ys) = spell xs ++ spell ys :=
  List.flatMap_append

theorem tokens_append (p : Position) (xs ys : List Piece) :
    tokens p (xs ++ ys) = tokens p xs ++ tokens (p.after (spell xs)) ys := by
  induction xs generalizing p with
  | nil => rfl
  | cons x xs ih =>
    simp only [List.cons_append, tokens, ih, spell_cons, Position.after_append, List.append_assoc]

/-- No word of some pieces runs into the next, and only a remark follows `REM`. The flag says
whether `REM` comes before them. -/
inductive Legible : Bool → List Piece → Prop
  | nil {remark : Bool} : Legible remark []
  | blank {remark : Bool} {ps : List Piece} (h : Legible remark ps) : Legible remark (.blank :: ps)
  | word {kind : Kind} {text : String} {ps : List Piece} (hform : kind.Form text)
      (hrest : kind ≠ .leftParen → Delimited (spell ps)) (h : Legible (kind = .keyword .REM) ps) :
      Legible false (.word kind text :: ps)
  | remark {text : String} (h : IsRemark text.toList) : Legible true [.remark text]

variable {xs ys : List Piece}

/-- Pieces that more can stand behind, as long as no word goes on into it. -/
def IsPhrase (xs : List Piece) : Prop :=
  ∀ ys, Delimited (spell ys) → Legible false ys → Legible false (xs ++ ys)

theorem IsPhrase.legible (h : IsPhrase xs) : Legible false xs := by
  have hnil := h [] delimited_nil .nil
  rwa [List.append_nil] at hnil

theorem isPhrase_nil : IsPhrase [] :=
  fun _ _ h => h

theorem IsPhrase.append (hx : IsPhrase xs) (hy : IsPhrase ys) (hd : Delimited (spell ys)) :
    IsPhrase (xs ++ ys) := by
  intro zs hzs h
  rw [List.append_assoc]
  apply hx
  · rw [spell_append]
    exact hd.append hzs
  · exact hy zs hzs h

theorem IsPhrase.blank (h : IsPhrase xs) : IsPhrase (.blank :: xs) :=
  fun ys hys hlegible => .blank (h ys hys hlegible)

theorem IsPhrase.word {kind : Kind} {text : String} (hform : kind.Form text)
    (hrem : kind ≠ .keyword .REM) (hd : kind ≠ .leftParen → Delimited (spell xs))
    (h : IsPhrase xs) : IsPhrase (.word kind text :: xs) := by
  intro ys hys hlegible
  refine .word hform ?_ ?_
  · intro hkind
    have hdelimited := (hd hkind).append hys
    rwa [← spell_append] at hdelimited
  · rw [decide_eq_false hrem]
    exact h ys hys hlegible

theorem delimited_blank (xs : List Piece) : Delimited (spell (.blank :: xs)) := by
  intro c hc
  obtain rfl : ' ' = c := Option.some.inj hc
  rfl

theorem Legible.word_blank {kind : Kind} {text : String} (hform : kind.Form text)
    (hrem : kind ≠ .keyword .REM) (h : Legible false xs) :
    Legible false (.word kind text :: .blank :: xs) := by
  refine .word hform (fun _ => delimited_blank xs) ?_
  rw [decide_eq_false hrem]
  exact h.blank

/-- A keyword between blanks. -/
def spaced (k : Keyword) : List Piece :=
  [.blank, .word (.keyword k) k.text, .blank]

theorem tokens_spaced (p : Position) (k : Keyword) (xs ys : List Piece) :
    ∃ q, tokens p (xs ++ (spaced k ++ ys)) =
      tokens p xs ++ ⟨.keyword k, k.text, q⟩ ::
        tokens (p.after (spell xs ++ spell (spaced k))) ys := by
  rw [tokens_append, tokens_append, Position.after_append]
  exact ⟨_, rfl⟩

theorem IsPhrase.legible_spaced {k : Keyword} (h : IsPhrase xs) (hrem : k ≠ .REM)
    (hys : Legible false ys) : Legible false (xs ++ (spaced k ++ ys)) := by
  have hform : (Kind.keyword k).Form k.text := rfl
  have hkind : Kind.keyword k ≠ .keyword .REM := fun hk => hrem (Kind.keyword.inj hk)
  exact h _ (delimited_blank _) (.blank (hys.word_blank hform hkind))

theorem newline_not_mem_spaced (k : Keyword) : '\n' ∉ spell (spaced k) := by
  cases k <;> decide

/-- A comma and a blank. -/
def separator : List Piece :=
  [.word .comma ",", .blank]

theorem tokens_separator (p : Position) (xs ys : List Piece) :
    ∃ q, tokens p (xs ++ (separator ++ ys)) =
      tokens p xs ++ ⟨.comma, ",", q⟩ :: tokens (p.after (spell xs ++ spell separator)) ys := by
  rw [tokens_append, tokens_append, Position.after_append]
  exact ⟨_, rfl⟩

theorem delimited_separator (xs : List Piece) : Delimited (spell (separator ++ xs)) := by
  intro c hc
  obtain rfl : ',' = c := Option.some.inj hc
  rfl

theorem IsPhrase.separator_append (h : IsPhrase xs) : IsPhrase (separator ++ xs) := by
  have hcomma : Kind.comma.Form "," := rfl
  exact IsPhrase.word hcomma Kind.noConfusion (fun _ => delimited_blank xs) h.blank

theorem delimited_rightParen : Delimited (spell [.word .rightParen ")"]) := by
  intro c hc
  obtain rfl : ')' = c := Option.some.inj hc
  rfl

theorem isPhrase_rightParen : IsPhrase [.word .rightParen ")"] := by
  have hparen : Kind.rightParen.Form ")" := rfl
  exact IsPhrase.word hparen Kind.noConfusion (fun _ => delimited_nil) isPhrase_nil

theorem isPhrase_intercalate {xss : List (List Piece)} (h : ∀ xs ∈ xss, IsPhrase xs) :
    IsPhrase (separator.intercalate xss) := by
  induction xss with
  | nil => exact isPhrase_nil
  | cons xs xss ih =>
    have hxs := h xs List.mem_cons_self
    have hxss := ih fun ys hys => h ys (List.mem_cons_of_mem _ hys)
    cases xss with
    | nil =>
      rw [List.intercalate_singleton]
      exact hxs
    | cons ys yss =>
      rw [List.intercalate_cons_cons, List.append_assoc]
      exact hxs.append hxss.separator_append (delimited_separator _)

theorem spell_intercalate (xss : List (List Piece)) :
    spell (separator.intercalate xss) = ", ".toList.intercalate (xss.map spell) := by
  induction xss with
  | nil => rfl
  | cons xs xss ih =>
    cases xss with
    | nil => simp
    | cons ys yss =>
      rw [List.intercalate_cons_cons, spell_append, spell_append, ih]
      exact List.intercalate_cons_cons.symm

theorem newline_not_mem_intercalate {xss : List (List Piece)} (h : ∀ xs ∈ xss, '\n' ∉ spell xs) :
    '\n' ∉ spell (separator.intercalate xss) := by
  induction xss with
  | nil => exact List.not_mem_nil
  | cons xs xss ih =>
    have hxs := h xs List.mem_cons_self
    have hxss := ih fun ys hys => h ys (List.mem_cons_of_mem _ hys)
    cases xss with
    | nil =>
      rw [List.intercalate_singleton]
      exact hxs
    | cons ys yss =>
      have hseparator : '\n' ∉ spell separator := by decide
      rw [List.intercalate_cons_cons, spell_append, spell_append]
      exact List.not_mem_append (List.not_mem_append hxs hseparator) hxss

end Piece

namespace Scanner

variable {s : Scanner}

/-- A blank before the rest moves the next token. -/
theorem next_of_blank {rest : List Char} (h : s.rest = ' ' :: rest) :
    s.next = { s with rest := rest, position := s.position.advance ' ' }.next := by
  obtain ⟨_, position, lineStart, remark⟩ := s
  subst h
  cases remark with
  | false =>
    rw [next_of_not_remark rfl, next_of_not_remark rfl]
    apply nextLexeme_congr
    simp [skipGap, skipWhile, isGap, isSpace]
  | true =>
    have hskip : (⟨' ' :: rest, position, lineStart, true⟩ : Scanner).skipWhile isSpace =
        (⟨rest, position.advance ' ', lineStart, true⟩ : Scanner).skipWhile isSpace := by
      simp [skipWhile, isSpace]
    have htake : (⟨' ' :: rest, position, lineStart, true⟩ : Scanner).takeRemark =
        (⟨rest, position.advance ' ', lineStart, true⟩ : Scanner).takeRemark := by
      rw [takeRemark_of_remark rfl, takeRemark_of_remark rfl, remarkText, remarkText, hskip]
    unfold next
    rw [htake]

theorem skipGap_of_not_isGap {c : Char} {cs : List Char} (hrest : s.rest = c :: cs)
    (hgap : isGap c = false) : s.skipGap = s := by
  unfold skipGap skipWhile
  rw [hrest, List.takeWhile_cons_of_neg (by simp [hgap]),
    List.dropWhile_cons_of_neg (by simp [hgap]), ← hrest]
  simp

theorem next_of_reads {kind : Kind} {text : String} {rest : List Char}
    (hremark : s.remark = false) (hstart : s.lineStart = false)
    (hrest : s.rest = kind.lexeme text ++ rest) (h : Lexeme.Reads kind text rest) :
    s.next = (⟨kind, text, s.position⟩,
      ⟨rest, s.position.after (kind.lexeme text), false, kind = .keyword .REM⟩) := by
  obtain ⟨c, cs, hlexeme, hgap, hread⟩ := h
  rw [hlexeme, List.cons_append] at hrest
  have hskip := skipGap_of_not_isGap hrest hgap
  rw [next_of_not_remark hremark, nextLexeme_of_cons (by rw [hskip, hrest]), hskip, hstart, hread,
    hlexeme, String.ofList_toList]

/-- A number that opens a line is read whole, whether or not it is a line number. -/
theorem next_of_number {text : String} {rest : List Char} (hremark : s.remark = false)
    (hrest : s.rest = text.toList ++ rest) (hform : Kind.number.Form text)
    (hdelimited : Delimited rest) :
    ∃ kind, (kind = .number ∨ kind = .lineNumber) ∧
      s.next = (⟨kind, text, s.position⟩, ⟨rest, s.position.after text.toList, false, false⟩) := by
  obtain ⟨whole, fraction, htext, h⟩ := hform
  obtain ⟨c, cs, hcons, hgap, hread⟩ := Lexeme.exists_read_number htext h hdelimited s.lineStart
  rw [hcons, List.cons_append] at hrest
  have hskip := skipGap_of_not_isGap hrest hgap
  rw [next_of_not_remark hremark, nextLexeme_of_cons (by rw [hskip, hrest]), hskip, hread, ← hcons,
    String.ofList_toList]
  by_cases hline : (s.lineStart && Lexeme.keywordFollows rest) = true
  · exact ⟨.lineNumber, .inr rfl, by rw [if_pos hline]; rfl⟩
  · exact ⟨.number, .inl rfl, by rw [if_neg hline]; rfl⟩

theorem next_of_isRemark {text : String} (hremark : s.remark = true) (hrest : s.rest = text.toList)
    (h : IsRemark text.toList) :
    s.next =
      (⟨.string, text, s.position⟩, ⟨[], s.position.after text.toList, s.lineStart, false⟩) := by
  have hspace : s.skipWhile isSpace = s := by
    obtain ⟨c, cs, hcs⟩ := List.exists_cons_of_ne_nil h.ne_nil
    have hc : isSpace c = false := h.head c (by rw [hcs]; rfl)
    unfold skipWhile
    rw [hrest, hcs, List.takeWhile_cons_of_neg (by simp [hc]),
      List.dropWhile_cons_of_neg (by simp [hc]), ← hcs, ← hrest]
    rfl
  have hline : ∀ c ∈ text.toList, (c != '\n') = true := by
    intro c hc
    apply bne_iff_ne.mpr
    rintro rfl
    exact h.newline hc
  have htext : s.remarkText = text.toList := by
    rw [remarkText, hspace, hrest, List.takeWhile_eq_self_iff.mpr hline, h.trimEnd]
  have hne : ¬ text.toList.isEmpty = true := by
    rw [List.isEmpty_iff]
    exact h.ne_nil
  have htake := takeRemark_of_remark hremark
  rw [htext, if_neg hne, hspace, String.ofList_toList] at htake
  rw [next_of_some (by rw [htake]), htake]
  simp only [skipWhile, hrest, List.takeWhile_eq_self_iff.mpr hline,
    List.dropWhile_eq_nil_iff.mpr hline]

theorem tokens_of_nil (h : s.rest = []) : s.tokens = [.endAt s.position] := by
  have hnone : s.takeRemark = (none, { s with remark := false }) := by
    obtain ⟨_, position, lineStart, remark⟩ := s
    subst h
    cases remark <;> rfl
  apply tokens_of_end _ rfl
  rw [next_of_none (by rw [hnone]), hnone,
    nextLexeme_of_nil (by rw [skipGap_rest, h, List.dropWhile_nil]), skipGap_position, h]
  rfl

/-- The tokens of a text that is put together from pieces are those of its pieces. -/
theorem tokens_spell {ps : List Piece} (hstart : s.lineStart = false)
    (hrest : s.rest = Piece.spell ps) (h : Piece.Legible s.remark ps) :
    s.tokens = Piece.tokens s.position ps ++ [.endAt (s.position.after (Piece.spell ps))] := by
  generalize hremark : s.remark = remark at h
  induction h generalizing s with
  | nil => exact tokens_of_nil hrest
  | @blank remark ps _ ih =>
    have hblank : s.rest = ' ' :: Piece.spell ps := hrest
    rw [tokens_congr (next_of_blank hblank)]
    exact ih (s := { s with rest := Piece.spell ps, position := s.position.advance ' ' })
      hstart rfl hremark
  | @word kind text ps hform hdelimited _ ih =>
    have hnext := next_of_reads hremark hstart hrest (Lexeme.reads_of_form hform hdelimited)
    have hkind : kind ≠ .endOfInput := by
      rintro rfl
      exact hform
    rw [tokens_of_ne_end (by rw [hnext]; exact hkind), hnext, ih rfl rfl rfl, Piece.spell_cons,
      Position.after_append]
    rfl
  | @remark text h =>
    rw [Piece.spell_cons, Piece.spell_nil, List.append_nil] at hrest
    have hnext := next_of_isRemark hremark hrest h
    rw [tokens_of_ne_end (by rw [hnext]; exact Kind.noConfusion), hnext, tokens_of_nil rfl]
    simp [Piece.tokens, Piece.token?, Piece.source]

end Scanner

end LineBasic
