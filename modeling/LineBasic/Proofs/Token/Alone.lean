import LineBasic.Proofs.Statement.Faults
import LineBasic.Proofs.Token.LineNumber

/-!
# Tokens on their own

A number, a word, an operator or a punctuation mark is written in the same way wherever it stands:
`Kind.Spells` says how, and every such text by itself is one token (`Token.scan_of_spells`). All
numerals have a value, so no token of a source is ever blamed for a number that cannot be read
(`Token.scan_text`).
-/

namespace LineBasic

/-! ## Spellings -/

namespace Kind

/-- Whether tokens of a kind are numbers, words, operators or punctuation marks. -/
def isPlain : Kind → Bool
  | .endOfInput | .illegal | .string => false
  | _ => true

/-- The texts of numbers, words, operators and punctuation marks. -/
def Spells : Kind → String → Prop
  | .lineNumber, s | .number, s => SpellsNumber s.toList
  | .name, s => IsWord s.toList ∧ ∀ k : Keyword, k.text ≠ s.toUpper
  | .keyword k, s => IsWord s.toList ∧ k.text = s.toUpper
  | .operator op, s => s = op.text
  | .leftParen, s => s = "("
  | .rightParen, s => s = ")"
  | .comma, s => s = ","
  | .semicolon, s => s = ";"
  | .endOfInput, _ | .illegal, _ | .string, _ => False

/-- What a token of a kind is where it stands alone. -/
def alone : Kind → Kind
  | .lineNumber => .number
  | kind => kind

end Kind

/-- A numeral, a word, an operator or a punctuation mark. -/
def IsPlainText (s : String) : Prop :=
  SpellsNumber s.toList ∨ IsWord s.toList ∨ (∃ op : Operator, s = op.text) ∨
    s ∈ ["(", ")", ",", ";"]

namespace Keyword

theorem mem_all (k : Keyword) : k ∈ all := by
  cases k <;> decide

theorem ofText?_eq_some_iff {s : String} {k : Keyword} :
    ofText? s = some k ↔ k.text = s.toUpper := by
  constructor
  · intro h
    simpa using List.find?_some h
  · intro h
    have hupper : ofText? s = ofText? k.text := by rw [ofText?, ofText?, h, toUpper_toUpper]
    rw [hupper, ofText?_keyword]

theorem ofText?_eq_none_iff {s : String} :
    ofText? s = none ↔ ∀ k : Keyword, k.text ≠ s.toUpper := by
  simp [ofText?, mem_all]

end Keyword

/-- Every such text is one of a kind. -/
theorem IsPlainText.exists_spells {s : String} (h : IsPlainText s) :
    ∃ kind : Kind, kind.isPlain = true ∧ kind ≠ .lineNumber ∧ kind.Spells s := by
  rcases h with hnumber | hword | ⟨op, hop⟩ | hmark
  · exact ⟨.number, rfl, Kind.noConfusion, hnumber⟩
  · cases hkeyword : Keyword.ofText? s with
    | none => exact ⟨.name, rfl, Kind.noConfusion, hword, Keyword.ofText?_eq_none_iff.mp hkeyword⟩
    | some k =>
      exact ⟨.keyword k, rfl, Kind.noConfusion, hword, Keyword.ofText?_eq_some_iff.mp hkeyword⟩
  · exact ⟨.operator op, rfl, Kind.noConfusion, hop⟩
  · simp only [List.mem_cons, List.not_mem_nil, or_false] at hmark
    rcases hmark with rfl | rfl | rfl | rfl
    · exact ⟨.leftParen, rfl, Kind.noConfusion, rfl⟩
    · exact ⟨.rightParen, rfl, Kind.noConfusion, rfl⟩
    · exact ⟨.comma, rfl, Kind.noConfusion, rfl⟩
    · exact ⟨.semicolon, rfl, Kind.noConfusion, rfl⟩

/-! ## Tokens are spelled like this -/

namespace Lexeme

theorem spells_word {c : Char} (cs : List Char) (h : isWordStart c = true) :
    (word (c :: cs)).kind.Spells (String.ofList (word (c :: cs)).text) := by
  have hword : IsWord (String.ofList (splitWord (c :: cs)).1).toList := by
    rw [String.toList_ofList]
    exact isWord_splitWord cs h
  unfold word
  dsimp only
  split
  · rename_i k hk
    exact ⟨hword, Keyword.ofText?_eq_some_iff.mp hk⟩
  · rename_i hnone
    exact ⟨hword, Keyword.ofText?_eq_none_iff.mp hnone⟩

theorem spells_symbolKind {c : Char} (h : (symbolKind c).isPlain = true) :
    (symbolKind c).Spells (String.ofList [c]) := by
  revert h
  unfold symbolKind
  split <;> intro h
  case h_13 => cases h
  all_goals rfl

theorem spells_symbol {c : Char} {cs : List Char} (h : (symbol c cs).kind.isPlain = true) :
    (symbol c cs).kind.Spells (String.ofList (symbol c cs).text) := by
  unfold symbol at h ⊢
  split at h
  · split at h
    · rfl
    · rfl
    · rfl
    · exact spells_symbolKind h
  · exact spells_symbolKind h

theorem isPlain_string (cs : List Char) : (string cs).kind.isPlain = false := by
  unfold string
  dsimp only
  split <;> rfl

theorem spells_read {lineStart : Bool} {c : Char} {cs : List Char}
    (h : (read lineStart c cs).kind.isPlain = true) :
    (read lineStart c cs).kind.Spells (String.ofList (read lineStart c cs).text) := by
  unfold read at h ⊢
  split at h
  · rename_i hnumber
    have hspells := spellsNumber_splitNumber hnumber
    rw [← String.toList_ofList (l := (splitNumber (c :: cs)).1)] at hspells
    rw [if_pos hnumber]
    unfold number
    dsimp only
    split <;> exact hspells
  · rename_i hnumber
    rw [if_neg hnumber]
    split at h
    · rename_i hword
      rw [if_pos hword]
      exact spells_word cs hword
    · rename_i hword
      rw [if_neg hword]
      split at h
      · rw [isPlain_string] at h
        cases h
      · rename_i hquote
        rw [if_neg hquote]
        exact spells_symbol h

end Lexeme

namespace Token

theorem spells_text (source : String) :
    ∀ t ∈ scan source, t.kind.isPlain = true → t.kind.Spells t.text := by
  apply Scanner.forall_mem_tokens
  · intro position hplain
    cases hplain
  · intro lineStart c cs position hplain
    exact Lexeme.spells_read hplain
  · intro s t ht hplain
    rw [Scanner.kind_of_takeRemark ht] at hplain
    cases hplain

end Token

/-! ## What is spelled like this is a token -/

namespace Lexeme

theorem splitNumber_of_spellsNumber {cs : List Char} (h : SpellsNumber cs) :
    splitNumber cs = (cs, []) := by
  have hnil : ∀ c ∈ ([] : List Char).head?, c.isDigit = false := fun _ hc => nomatch hc
  obtain ⟨whole, hwhole, ⟨rfl, -⟩ | ⟨fraction, hfraction, hne, rfl⟩⟩ := h
  · simpa using splitNumber_of_digits hwhole hnil rfl
  · simpa using splitNumber_of_fraction hwhole hfraction hne hnil

theorem reads_of_spellsNumber {text : String} (h : SpellsNumber text.toList) :
    Reads .number text [] := by
  have hne : text.toList ≠ [] := by
    obtain ⟨whole, -, ⟨htext, hne⟩ | ⟨fraction, -, -, htext⟩⟩ := h <;> rw [htext]
    · exact hne
    · simp
  obtain ⟨c, cs, hcons⟩ := List.exists_cons_of_ne_nil hne
  have hstarts : startsNumber c cs = true :=
    startsNumber_of_spellsNumber h (by rw [List.append_nil, hcons])
  have hgap : isGap c = false := by
    rw [startsNumber, Bool.or_eq_true, Bool.and_eq_true, beq_iff_eq] at hstarts
    rcases hstarts with hdigit | ⟨rfl, -⟩
    · exact isGap_of_isDigit hdigit
    · decide
  refine ⟨c, cs, hcons, hgap, ?_⟩
  rw [List.append_nil, read, if_pos hstarts, ← hcons, number, splitNumber_of_spellsNumber h]
  rfl

/-- What a kind spells is read as a token of this kind. -/
theorem reads_of_spells {kind : Kind} {text : String} (h : kind.Spells text) :
    Reads kind.alone text [] := by
  have hsymbol : ∀ c, symbol c [] = ⟨symbolKind c, [c], [c], []⟩ := fun _ => rfl
  cases kind with
  | endOfInput | illegal | string => exact h.elim
  | number | lineNumber => exact reads_of_spellsNumber h
  | name => exact reads_word h.1 delimited_nil (by rw [Keyword.ofText?_eq_none_iff.mpr h.2]; rfl)
  | keyword k =>
    exact reads_word h.1 delimited_nil (by rw [Keyword.ofText?_eq_some_iff.mpr h.2]; rfl)
  | operator op =>
    obtain rfl : text = op.text := h
    exact reads_operator op delimited_nil
  | leftParen =>
    obtain rfl : text = "(" := h
    exact reads_symbol '(' rfl rfl rfl rfl (by decide) (hsymbol _)
  | rightParen =>
    obtain rfl : text = ")" := h
    exact reads_symbol ')' rfl rfl rfl rfl (by decide) (hsymbol _)
  | comma =>
    obtain rfl : text = "," := h
    exact reads_symbol ',' rfl rfl rfl rfl (by decide) (hsymbol _)
  | semicolon =>
    obtain rfl : text = ";" := h
    exact reads_symbol ';' rfl rfl rfl rfl (by decide) (hsymbol _)

/-- Without a keyword behind it, what opens a line is read like anything else. -/
theorem read_of_rest_nil {c : Char} {cs : List Char} (h : (read false c cs).rest = [])
    (lineStart : Bool) : read lineStart c cs = read false c cs := by
  unfold read at h ⊢
  split at h
  · rename_i hnumber
    have hrest : (splitNumber (c :: cs)).2 = [] := h
    have hfollows : keywordFollows [] = false := by decide +kernel
    rw [if_pos hnumber, if_pos hnumber]
    unfold number
    dsimp only
    rw [hrest, hfollows, Bool.and_false, Bool.and_false]
  · rename_i hnumber
    rw [if_neg hnumber, if_neg hnumber]

end Lexeme

namespace Token

/-- What a kind spells is one token of this kind. -/
theorem scan_of_spells {kind : Kind} {text : String} (h : kind.Spells text) :
    scan text = [⟨kind.alone, text, .start⟩, .endAt (.behind text.toList)] := by
  obtain ⟨c, cs, hlexeme, hgap, hread⟩ := Lexeme.reads_of_spells h
  have hplain : kind.alone ≠ .string ∧ kind.alone ≠ .endOfInput := by
    cases kind with
    | endOfInput | illegal | string => exact h.elim
    | _ => exact ⟨Kind.noConfusion, Kind.noConfusion⟩
  have htext : text.toList = c :: cs := by rw [← hlexeme, Kind.lexeme, if_neg hplain.1]
  rw [List.append_nil] at hread
  have hrest : (Scanner.ofString text).rest = c :: cs := htext
  have hskip := Scanner.skipGap_of_not_isGap hrest hgap
  have hnext : (Scanner.ofString text).next =
      (⟨kind.alone, text, .start⟩,
        ⟨[], Position.start.after (c :: cs), false, kind.alone = .keyword .REM⟩) := by
    rw [Scanner.next_of_not_remark rfl, Scanner.nextLexeme_of_cons (by rw [hskip, hrest]), hskip,
      Lexeme.read_of_rest_nil (by rw [hread]), hread, String.ofList_toList]
    rfl
  have hscan : scan text = [⟨kind.alone, text, .start⟩] ++
      [.endAt (Position.start.after (c :: cs))] := by
    rw [scan, Scanner.tokens_of_ne_end (by rw [hnext]; exact hplain.2), hnext,
      Scanner.tokens_of_nil rfl]
    rfl
  -- The end token stands behind the whole text in every scan.
  obtain ⟨-, hend⟩ := List.append_inj' (hscan.symm.trans (exists_scan_eq text).1) rfl
  rw [hscan, hend]
  rfl

end Token

/-! ## Numerals have values -/

theorem Number.exists_decimal_of_spellsNumber {cs : List Char} (h : SpellsNumber cs) :
    ∃ d, Decimal.ofText? cs = some d := by
  have hnil : ∀ c ∈ ([] : List Char).head?, c.isDigit = false := fun _ hc => nomatch hc
  obtain ⟨whole, hwhole, ⟨rfl, hne⟩ | ⟨fraction, hfraction, hne, rfl⟩⟩ := h
  · obtain ⟨htake, hdrop⟩ := Lexeme.takeWhile_dropWhile_append hwhole hnil
    rw [List.append_nil] at htake hdrop
    simp [Decimal.ofText?, htake, hdrop, splitFraction, exponentOf?, hne]
  · have hpoint : ∀ c ∈ ('.' :: fraction).head?, c.isDigit = false := by simp
    obtain ⟨htake, hdrop⟩ := Lexeme.takeWhile_dropWhile_append hwhole hpoint
    obtain ⟨htake', hdrop'⟩ := Lexeme.takeWhile_dropWhile_append hfraction hnil
    rw [List.append_nil] at htake' hdrop'
    simp [Decimal.ofText?, htake, hdrop, splitFraction, htake', hdrop', exponentOf?, hne]

theorem Number.exists_value_of_spellsNumber {cs : List Char} (h : SpellsNumber cs) :
    ∃ x, ofText? cs = some x := by
  obtain ⟨d, hd⟩ := exists_decimal_of_spellsNumber h
  have hchars : ∀ c ∈ cs, c.isDigit = true ∨ c = '.' := by
    obtain ⟨whole, hwhole, ⟨rfl, -⟩ | ⟨fraction, hfraction, -, rfl⟩⟩ := h
    · exact fun c hc => .inl (hwhole c hc)
    · simp only [List.mem_append, List.mem_cons]
      rintro c (hc | rfl | hc)
      · exact .inl (hwhole c hc)
      · exact .inr rfl
      · exact .inl (hfraction c hc)
  cases cs with
  | nil => cases hd
  | cons c cs =>
    have hc := hchars c List.mem_cons_self
    rw [ofText?_of_unsigned hc, magnitudeOf?_of_unsigned hc, hd]
    exact ⟨_, rfl⟩

namespace Token

/-- If the token is a number, it has a value. -/
def Valued (t : Token) : Prop :=
  t.kind = .number ∨ t.kind = .lineNumber → ∃ x, Number.ofText? t.text.toList = some x

theorem valued_endAt (position : Position) : (endAt position).Valued := by
  rintro (hkind | hkind) <;> cases hkind

theorem valued_of_mem_scan (source : String) : ∀ t ∈ scan source, t.Valued := by
  intro t ht hkind
  apply Number.exists_value_of_spellsNumber
  have hspells := spells_text source t ht
  rcases hkind with hkind | hkind
  all_goals
    rw [hkind] at hspells
    exact hspells rfl

end Token

/-! ## No error of reading is about a number -/

/-- An error that says of a number that it cannot be read. -/
def Error.IsInvalidNumber (e : Error) : Prop :=
  ∃ number, e.text = "invalid number " ++ number

theorem Error.text_of_detail {e : Error} (h : e.detail ≠ "") : e.text = e.detail := by
  rw [text, if_neg (by simpa using h)]

/-- A text that begins otherwise does not say this. -/
theorem Error.not_isInvalidNumber {e : Error} (front back : String)
    (htext : e.text = front ++ back) (hfront : ¬ front.toList <+: "invalid number ".toList ∧
      ¬ "invalid number ".toList <+: front.toList) : ¬ e.IsInvalidNumber := by
  rintro ⟨number, hnumber⟩
  have hlist : front.toList ++ back.toList = "invalid number ".toList ++ number.toList := by
    rw [← String.toList_append, ← String.toList_append, ← htext, hnumber]
  have hprefix : front.toList <+: "invalid number ".toList ++ number.toList := ⟨back.toList, hlist⟩
  -- Of two beginnings of one text, one begins the other.
  rcases List.prefix_or_prefix_of_prefix hprefix (List.prefix_append _ _) with h | h
  · exact hfront.1 h
  · exact hfront.2 h

theorem Error.not_isInvalidNumber_of_detail {e : Error} (front back : String)
    (hdetail : e.detail = front ++ back) (hfront : ¬ front.toList <+: "invalid number ".toList ∧
      ¬ "invalid number ".toList <+: front.toList) : ¬ e.IsInvalidNumber := by
  have hne : e.detail ≠ "" := by
    intro hempty
    rw [hdetail, String.append_eq_empty_iff] at hempty
    rw [hempty.1] at hfront
    exact hfront.1 List.nil_prefix
  exact not_isInvalidNumber front back ((text_of_detail hne).trans hdetail) hfront

theorem Program.not_isInvalidNumber_of_insert {p : Program} {n : Nat} {st : Statement} {e : Error}
    (h : (insert n st p).1 = .error e) : ¬ e.IsInvalidNumber := by
  rcases eq_because_of_insert h with rfl | rfl
  · exact Error.not_isInvalidNumber_of_detail "invalid line number " _ rfl (by decide)
  · exact Error.not_isInvalidNumber_of_detail "duplicate line number " _ rfl (by decide)

namespace Token

variable {t : Token} {e : Error}

theorem not_isInvalidNumber_illegalError (t : Token) : ¬ t.illegalError.IsInvalidNumber := by
  unfold illegalError
  split
  · exact Error.not_isInvalidNumber "unterminated string" "" rfl (by decide)
  · exact Error.not_isInvalidNumber_of_detail "illegal character '" (t.text ++ "'")
      (String.append_assoc ..) (by decide)

theorem not_isInvalidNumber_of_toLineNumber (h : t.toLineNumber = .error e) :
    ¬ e.IsInvalidNumber := by
  unfold toLineNumber at h
  split at h
  · cases h
  · cases h
    exact Error.not_isInvalidNumber_of_detail "invalid line number " _ rfl (by decide)

/-- A token with a value is not blamed for having none. -/
theorem Fault.not_isInvalidNumber (h : t.Fault e) (ht : t.Valued) : ¬ e.IsInvalidNumber := by
  cases h with
  | illegal hkind => exact t.not_isInvalidNumber_illegalError
  | expected what => exact Error.not_isInvalidNumber_of_detail "expected " _ rfl (by decide)
  | unexpected => exact Error.not_isInvalidNumber_of_detail "unexpected " _ rfl (by decide)
  | number hkind hvalue =>
    obtain ⟨x, hx⟩ := ht hkind
    rw [Expr.ofNumber?, hx] at hvalue
    cases hvalue
  | lineNumber h => exact not_isInvalidNumber_of_toLineNumber h
  | @insert p n st e h =>
    have hinsert : ¬ e.IsInvalidNumber := Program.not_isInvalidNumber_of_insert h
    exact hinsert

theorem among_of_subset {source : String} {c : Cursor} (h : c.tokens ⊆ scan source) :
    c.Among Valued :=
  ⟨fun t ht => valued_of_mem_scan source t (h ht), valued_endAt c.stop⟩

theorem not_isInvalidNumber_of_blames {α : Type} {c : Cursor} {r : Reading α c}
    (h : r.Blames Valued) (he : r.result = .error e) : ¬ e.IsInvalidNumber := by
  obtain ⟨t, ht, hfault⟩ := h e he
  exact hfault.not_isInvalidNumber ht

/-- The numbers, words, operators and punctuation marks of a source are spelled as such, and each of
them by itself is the same token once more. Every text with such a spelling is a single token.
Numbers have values, and no reader that goes along the tokens of a source ever says that one cannot
be read. -/
theorem scan_text :
    (∀ source, ∀ t ∈ scan source, t.kind.isPlain = true → t.kind.Spells t.text ∧
      scan t.text = [⟨t.kind.alone, t.text, .start⟩, endAt (.behind t.text.toList)]) ∧
    (∀ text, IsPlainText text → ∃ kind : Kind, kind.isPlain = true ∧ kind ≠ .lineNumber ∧
      kind.Spells text ∧
      scan text = [⟨kind, text, .start⟩, endAt (.behind text.toList)]) ∧
    (∀ source, ∀ t ∈ scan source, t.kind = .number ∨ t.kind = .lineNumber →
      ∃ x, Number.ofText? t.text.toList = some x) ∧
    ∀ source (e : Error), e.IsInvalidNumber → Program.ofSource source ≠ .error e ∧
      ∀ c : Cursor, c.tokens ⊆ scan source → (Expr.read c).result ≠ .error e ∧
        ∀ line number, (Statement.read line number c).result ≠ .error e := by
  refine ⟨fun source t ht hplain => ?_, fun text htext =>
    ?_, valued_of_mem_scan, fun source e he => ⟨?_, ?_⟩⟩
  · have hspells := spells_text source t ht hplain
    exact ⟨hspells, scan_of_spells hspells⟩
  · obtain ⟨kind, hplain, hline, hspells⟩ := htext.exists_spells
    have halone : kind.alone = kind := by
      cases kind with
      | lineNumber => exact absurd rfl hline
      | _ => rfl
    refine ⟨kind, hplain, hline, hspells, ?_⟩
    rw [scan_of_spells hspells, halone]
  · intro herror
    have hamong : (Cursor.ofTokens (scan source)).Among Valued :=
      among_of_subset (List.Subset.refl (scan source))
    obtain ⟨t, ht, hfault⟩ := Program.exists_fault_of_ofTokens hamong herror
    exact hfault.not_isInvalidNumber ht he
  · intro c hc
    have hamong := among_of_subset hc
    exact ⟨fun herror => not_isInvalidNumber_of_blames (Expr.blames hamong) herror he,
      fun line number herror =>
        not_isInvalidNumber_of_blames (Statement.blames line number c hamong) herror he⟩

/-- A line with points that belong to a number and points that do not. -/
def dotted : String := "10 print 1..5 + x_1$"

theorem scan_dotted :
    scan dotted =
      [⟨.lineNumber, "10", ⟨1, 1⟩⟩, ⟨.keyword .PRINT, "print", ⟨1, 4⟩⟩, ⟨.number, "1", ⟨1, 10⟩⟩,
        ⟨.illegal, ".", ⟨1, 11⟩⟩, ⟨.number, ".5", ⟨1, 12⟩⟩, ⟨.operator .add, "+", ⟨1, 15⟩⟩,
        ⟨.name, "x_1$", ⟨1, 17⟩⟩, endAt ⟨1, 21⟩] := by
  with_unfolding_all rfl

theorem scan_text_dotted :
    (⟨.lineNumber, "10", ⟨1, 1⟩⟩ ∈ scan dotted ∧
      scan "10" = [⟨.number, "10", ⟨1, 1⟩⟩, endAt ⟨1, 3⟩]) ∧
      (⟨.number, ".5", ⟨1, 12⟩⟩ ∈ scan dotted ∧
        scan ".5" = [⟨.number, ".5", ⟨1, 1⟩⟩, endAt ⟨1, 3⟩] ∧
        ∃ x, Number.ofText? ".5".toList = some x) ∧
      (IsPlainText "then$" ∧ ∃ kind : Kind, kind.isPlain = true ∧
        scan "then$" = [⟨kind, "then$", ⟨1, 1⟩⟩, endAt ⟨1, 6⟩]) ∧
      Program.ofSource dotted ≠ .error (.because .syntaxError "invalid number .5") := by
  have hfirst : ⟨.lineNumber, "10", ⟨1, 1⟩⟩ ∈ scan dotted := by
    rw [scan_dotted]
    decide
  have hhalf : ⟨.number, ".5", ⟨1, 12⟩⟩ ∈ scan dotted := by
    rw [scan_dotted]
    decide
  have hbody : ∀ d ∈ ['h', 'e', 'n'], isWordChar d = true := List.all_eq_true.mp rfl
  have hword : IsWord "then$".toList := ⟨'t', ['h', 'e', 'n'], rfl, hbody, .inr rfl⟩
  obtain ⟨halone, hplain, hvalue, herror⟩ := scan_text
  obtain ⟨kind, hkind, -, -, hscan⟩ := hplain "then$" (.inr (.inl hword))
  have hfive := hvalue dotted _ hhalf (.inl rfl)
  exact ⟨⟨hfirst, (halone dotted _ hfirst rfl).2⟩, ⟨hhalf, (halone dotted _ hhalf rfl).2, hfive⟩,
    ⟨.inr (.inl hword), kind, hkind, hscan⟩, (herror dotted _ ⟨".5", rfl⟩).1⟩

end Token

end LineBasic
