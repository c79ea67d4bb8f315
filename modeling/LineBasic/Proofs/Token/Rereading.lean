import LineBasic.Proofs.Token.Blanks
import LineBasic.Proofs.Token.Follows

/-!
# Reading a lexeme again before another rest

What a lexeme is depends on what stands behind it only through the first character there, and for a
number also through whether a fraction or a keyword comes next. Before two rests that agree in this
(`Lexeme.LooksAlike`) the same lexeme is read (`Lexeme.read_of_looksAlike`). Two rests from which
the same next token is read, at the same distance, agree in this (`Scanner.looksAlike_of_next`).
-/

namespace LineBasic

namespace Lexeme

/-- Two rests begin with the same character, or neither with one that a lexeme before it could
take. -/
def SameHead (r r' : List Char) : Prop :=
  r.head? = r'.head? ∨ (∀ c ∈ r.head?, Text.isBlank c = true) ∧
    ∀ c ∈ r'.head?, Text.isBlank c = true

/-- A point and a digit come next. -/
def startsFraction : List Char → Bool
  | '.' :: d :: _ => d.isDigit
  | _ => false

/-- Two rests that no lexeme before them can tell apart. -/
structure LooksAlike (r r' : List Char) : Prop where
  sameHead : SameHead r r'
  startsFraction_eq : startsFraction r = startsFraction r'
  keywordFollows_eq : keywordFollows r = keywordFollows r'

section

variable {r r' : List Char}

theorem SameHead.any_eq {p : Char → Bool} (h : SameHead r r')
    (hp : ∀ c, Text.isBlank c = true → p c = false) : r'.head?.any p = r.head?.any p := by
  have hany : ∀ l : List Char, (∀ c ∈ l.head?, Text.isBlank c = true) → l.head?.any p = false := by
    intro l hl
    cases l with
    | nil => rfl
    | cons c l => exact hp c (hl c rfl)
  rcases h with h | ⟨h, h'⟩
  · rw [h]
  · rw [hany r h, hany r' h']

theorem any_head_eq_false_iff {p : Char → Bool} :
    r.head?.any p = false ↔ ∀ c ∈ r.head?, p c = false := by
  cases r <;> simp

theorem SameHead.forall_head {p : Char → Bool} (h : SameHead r r')
    (hp : ∀ c, Text.isBlank c = true → p c = false) (hr : ∀ c ∈ r.head?, p c = false) :
    ∀ c ∈ r'.head?, p c = false := by
  rw [← any_head_eq_false_iff] at hr ⊢
  rw [h.any_eq hp, hr]

theorem SameHead.head?_ne {d : Char} (h : SameHead r r') (hd : Text.isBlank d = false)
    (hr : r.head? ≠ some d) : r'.head? ≠ some d := by
  rcases h with h | ⟨_, h'⟩
  · rwa [← h]
  · intro hr'
    exact Bool.false_ne_true (hd.symm.trans (h' d hr'))

/-! ## Numbers -/

theorem splitNumber_of_digits {whole : List Char} (hwhole : ∀ c ∈ whole, c.isDigit = true)
    (hr : ∀ c ∈ r.head?, c.isDigit = false) (hfraction : startsFraction r = false) :
    splitNumber (whole ++ r) = (whole, r) := by
  obtain ⟨htake, hdrop⟩ := takeWhile_dropWhile_append hwhole hr
  simp only [splitNumber, htake, hdrop]
  split
  · rename_i d rest
    have hd : d.isDigit = false := hfraction
    rw [if_neg (by simp [hd])]
  · rfl

theorem splitNumber_of_fraction {whole fraction : List Char}
    (hwhole : ∀ c ∈ whole, c.isDigit = true) (hfraction : ∀ c ∈ fraction, c.isDigit = true)
    (hne : fraction ≠ []) (hr : ∀ c ∈ r.head?, c.isDigit = false) :
    splitNumber (whole ++ '.' :: fraction ++ r) = (whole ++ '.' :: fraction, r) := by
  obtain ⟨d, ds, rfl⟩ := List.exists_cons_of_ne_nil hne
  have hd : d.isDigit = true := hfraction d List.mem_cons_self
  have hpoint : ∀ c ∈ ('.' :: (d :: ds ++ r)).head?, c.isDigit = false := by simp
  obtain ⟨htake, hdrop⟩ := takeWhile_dropWhile_append hwhole hpoint
  obtain ⟨htake', hdrop'⟩ := takeWhile_dropWhile_append hfraction hr
  simp only [List.cons_append] at htake hdrop htake' hdrop'
  simp [splitNumber, htake, hdrop, hd, htake', hdrop']

/-- A number is a row of digits before something that does not continue it, or has digits behind a
point as well. -/
theorem splitNumber_cases (cs : List Char) :
    (∀ c ∈ (splitNumber cs).2.head?, c.isDigit = false) ∧
      ((∀ c ∈ (splitNumber cs).1, c.isDigit = true) ∧ startsFraction (splitNumber cs).2 = false ∨
        ∃ whole fraction, (splitNumber cs).1 = whole ++ '.' :: fraction ∧
          (∀ c ∈ whole, c.isDigit = true) ∧
          (∀ c ∈ fraction, c.isDigit = true) ∧ fraction ≠ []) := by
  have hdigits : ∀ l : List Char, ∀ c ∈ l.takeWhile Char.isDigit, c.isDigit = true :=
    fun l c hc => List.mem_takeWhile_imp hc
  have hhead : ∀ l : List Char, ∀ c ∈ (l.dropWhile Char.isDigit).head?, c.isDigit = false := by
    intro l c hc
    obtain ⟨r, hr⟩ := List.head?_eq_some_iff.mp hc
    exact head_dropWhile hr
  have hrest := hhead cs
  unfold splitNumber
  dsimp only
  split
  · rename_i d rest heq
    by_cases hd : d.isDigit = true
    · rw [if_pos hd]
      refine ⟨hhead _, .inr ⟨_, _, rfl, hdigits _, hdigits _, ?_⟩⟩
      simp [hd]
    · rw [if_neg hd]
      rw [heq] at hrest
      exact ⟨hrest, .inl ⟨hdigits _, by simpa [startsFraction] using hd⟩⟩
  · rename_i hpoint
    refine ⟨hrest, .inl ⟨hdigits _, ?_⟩⟩
    unfold startsFraction
    split
    · rename_i d rest heq
      exact absurd heq (hpoint d rest)
    · rfl

theorem splitNumber_of_looksAlike {cs : List Char} (h : splitNumber (cs ++ r) = (cs, r))
    (hr : LooksAlike r r') : splitNumber (cs ++ r') = (cs, r') := by
  have hcases := splitNumber_cases (cs ++ r)
  rw [h] at hcases
  obtain ⟨hdigit, hform⟩ := hcases
  have hdigit' := hr.sameHead.forall_head (fun _ => Text.isDigit_of_isBlank) hdigit
  rcases hform with ⟨hcs, hfraction⟩ | ⟨whole, fraction, hcs, hwhole, hfraction, hne⟩
  · exact splitNumber_of_digits hcs hdigit' (by rw [← hr.startsFraction_eq, hfraction])
  · dsimp only at hcs
    rw [hcs]
    exact splitNumber_of_fraction hwhole hfraction hne hdigit'

theorem number_of_looksAlike {lineStart : Bool} {cs : List Char} {kind : Kind} {text : List Char}
    (h : number lineStart (cs ++ r) = ⟨kind, text, cs, r⟩)
    (hr : kind = .number ∨ kind = .lineNumber → LooksAlike r r') :
    number lineStart (cs ++ r') = ⟨kind, text, cs, r'⟩ := by
  unfold number at h
  dsimp only at h
  obtain ⟨hkind, htext, hsource, hrest⟩ := Lexeme.mk.inj h
  obtain rfl : cs = text := hsource.symm.trans htext
  have halike : LooksAlike r r' := by
    apply hr
    rw [← hkind]
    split
    · exact .inr rfl
    · exact .inl rfl
  have hsplit := splitNumber_of_looksAlike (Prod.ext hsource hrest) halike
  rw [hrest, halike.keywordFollows_eq] at hkind
  simp only [number, hsplit, hkind]

/-! ## Words, strings and symbols -/

theorem splitWord_of_sameHead {cs : List Char} (h : splitWord (cs ++ r) = (cs, r))
    (hr : SameHead r r') : splitWord (cs ++ r') = (cs, r') := by
  have hword : ∀ c ∈ (cs ++ r).takeWhile isWordChar, isWordChar c = true :=
    fun c hc => List.mem_takeWhile_imp hc
  unfold splitWord at h
  dsimp only at h
  split at h
  · rename_i rest heq
    obtain ⟨hcs, rfl⟩ := Prod.mk.inj h
    have hdollar : ∀ c ∈ ('$' :: r').head?, isWordChar c = false := by simp [isWordChar]
    obtain ⟨htake, hdrop⟩ := takeWhile_dropWhile_append hword hdollar
    rw [← hcs, List.append_assoc, List.singleton_append, splitWord, htake, hdrop]
    rfl
  · rename_i rest hnot
    obtain ⟨hcs, hrest⟩ := Prod.mk.inj h
    have hhead : ∀ c ∈ r.head?, isWordChar c = false := by
      intro c hc
      obtain ⟨l, hl⟩ := List.head?_eq_some_iff.mp hc
      exact head_dropWhile (hrest.trans hl)
    have hne : r.head? ≠ some '$' := by
      intro hc
      obtain ⟨l, hl⟩ := List.head?_eq_some_iff.mp hc
      exact hnot l (hrest.trans hl)
    rw [hcs] at hword
    obtain ⟨htake, hdrop⟩ := takeWhile_dropWhile_append hword
      (hr.forall_head (fun _ => Text.isWordChar_of_isBlank) hhead)
    have hne' := hr.head?_ne (by decide) hne
    simp only [splitWord, htake, hdrop]
    split
    · exact absurd rfl hne'
    · rfl

theorem word_of_sameHead {cs : List Char} {kind : Kind} {text : List Char}
    (h : word (cs ++ r) = ⟨kind, text, cs, r⟩) (hr : SameHead r r') :
    word (cs ++ r') = ⟨kind, text, cs, r'⟩ := by
  unfold word at h
  dsimp only at h
  obtain ⟨hkind, htext, hsource, hrest⟩ := Lexeme.mk.inj h
  obtain rfl : cs = text := hsource.symm.trans htext
  have hsplit := splitWord_of_sameHead (Prod.ext hsource hrest) hr
  rw [hsource] at hkind
  simp only [word, hsplit, hkind]

theorem string_of_append {cs : List Char} {kind : Kind} {text : List Char}
    (h : string (cs ++ r) = ⟨kind, text, '"' :: cs, r⟩)
    (hclosed : kind = .illegal → String.ofList text ≠ Token.unterminated) :
    string (cs ++ r') = ⟨kind, text, '"' :: cs, r'⟩ := by
  have hbody : ∀ c ∈ (cs ++ r).takeWhile (· != '"'), (c != '"') = true :=
    fun c hc => List.mem_takeWhile_imp (p := (· != '"')) hc
  unfold string at h
  dsimp only at h
  split at h
  · rename_i quote rest heq
    obtain rfl : quote = '"' := by simpa using head_dropWhile heq
    obtain ⟨rfl, rfl, hsource, rfl⟩ := Lexeme.mk.inj h
    have hcs : (cs ++ rest).takeWhile (· != '"') ++ ['"'] = cs := (List.cons.inj hsource).2
    generalize (cs ++ rest).takeWhile (· != '"') = body at hbody hcs
    subst hcs
    rw [List.append_assoc, List.singleton_append, string_of_quote hbody]
    rfl
  · obtain ⟨rfl, rfl, _⟩ := Lexeme.mk.inj h
    exact absurd (String.ofList_toList) (hclosed rfl)

/-- Whether two characters make one operator. -/
def pairs (c d : Char) : Bool :=
  c == '<' && (d == '=' || d == '>') || c == '>' && d == '='

theorem pairs_of_isBlank (c : Char) {d : Char} (h : Text.isBlank d = true) : pairs c d = false := by
  simp [pairs, Text.ne_of_isBlank h (show Text.isBlank '=' = false by decide),
    Text.ne_of_isBlank h (show Text.isBlank '>' = false by decide)]

theorem symbol_of_not_pairs {c : Char} {l : List Char} (h : l.head?.any (pairs c) = false) :
    symbol c l = ⟨symbolKind c, [c], [c], l⟩ := by
  cases l with
  | nil => rfl
  | cons d ds =>
    simp only [symbol]
    split
    · cases h
    · cases h
    · cases h
    · rfl

theorem source_symbol_of_pairs {c : Char} {l : List Char} (h : l.head?.any (pairs c) = true) :
    (symbol c l).source ≠ [c] := by
  cases l with
  | nil => cases h
  | cons d ds =>
    simp only [symbol]
    split
    · simp
    · simp
    · simp
    · rename_i hequal hgreater hequal'
      simp [pairs] at h
      grind

theorem symbol_of_sameHead {c : Char} {cs : List Char} {kind : Kind} {text : List Char}
    (h : symbol c (cs ++ r) = ⟨kind, text, c :: cs, r⟩) (hr : SameHead r r') :
    symbol c (cs ++ r') = ⟨kind, text, c :: cs, r'⟩ := by
  cases cs with
  | nil =>
    rw [List.nil_append] at h ⊢
    have hsingle : r.head?.any (pairs c) = false := by
      by_contra hpairs
      exact source_symbol_of_pairs (Bool.not_eq_false _ ▸ hpairs) (by rw [h])
    rw [symbol_of_not_pairs hsingle] at h
    rw [symbol_of_not_pairs ((hr.any_eq fun _ => pairs_of_isBlank c).trans hsingle)]
    obtain ⟨rfl, rfl, _⟩ := Lexeme.mk.inj h
    rfl
  | cons d ds =>
    simp only [List.cons_append, symbol] at h ⊢
    split at h
    all_goals simp_all

/-! ## Lexemes -/

theorem startsNumber_of_sameHead (hr : SameHead r r') (c : Char) (cs : List Char) :
    startsNumber c (cs ++ r') = startsNumber c (cs ++ r) := by
  cases cs with
  | nil =>
    rw [startsNumber, startsNumber, List.nil_append, List.nil_append, hr.any_eq fun _ =>
      Text.isDigit_of_isBlank]
  | cons d ds => rfl

/-- A lexeme is read again before a rest that looks alike. -/
theorem read_of_looksAlike {lineStart : Bool} {c : Char} {cs : List Char} {kind : Kind}
    {text : List Char} (h : read lineStart c (cs ++ r) = ⟨kind, text, c :: cs, r⟩)
    (hclosed : kind = .illegal → String.ofList text ≠ Token.unterminated) (hr : SameHead r r')
    (hnumber : kind = .number ∨ kind = .lineNumber → LooksAlike r r') :
    read lineStart c (cs ++ r') = ⟨kind, text, c :: cs, r'⟩ := by
  unfold read at h ⊢
  rw [← List.cons_append] at h ⊢
  rw [startsNumber_of_sameHead hr]
  split at h
  · rename_i hstart
    rw [if_pos hstart]
    exact number_of_looksAlike h hnumber
  · rename_i hstart
    rw [if_neg hstart]
    split at h
    · rename_i hword
      rw [if_pos hword]
      exact word_of_sameHead h hr
    · rename_i hword
      rw [if_neg hword]
      split at h
      · rename_i hquote
        subst hquote
        rw [if_pos rfl]
        exact string_of_append h hclosed
      · rename_i hquote
        rw [if_neg hquote]
        exact symbol_of_sameHead h hr

end

end Lexeme

/-! ## What the next token tells about a rest -/

theorem Position.after_eq_self_iff {p : Position} {cs : List Char} : p.after cs = p ↔ cs = [] := by
  constructor
  · intro h
    by_contra hne
    by_cases hnewline : '\n' ∈ cs
    · have hline := congrArg Position.line h
      have hcount := List.count_pos_iff.mpr hnewline
      rw [line_after] at hline
      omega
    · have hcolumn := congrArg Position.column h
      have hlength := List.length_pos_iff.mpr hne
      rw [after_eq_right hnewline] at hcolumn
      simp only [right] at hcolumn
      omega
  · rintro rfl
    rfl

/-- A place in a source belongs to one front part of it. -/
theorem Position.eq_of_behind_eq {front front' source : List Char} (hfront : front <+: source)
    (hfront' : front' <+: source) (h : behind front = behind front') : front = front' := by
  rcases List.prefix_or_prefix_of_prefix hfront hfront' with ⟨more, rfl⟩ | ⟨more, rfl⟩
  · rw [behind_append, eq_comm, after_eq_self_iff] at h
    rw [h, List.append_nil]
  · rw [behind_append, after_eq_self_iff] at h
    rw [h, List.append_nil]

namespace Lexeme

theorem symbolKind_ne_keyword (c : Char) (k : Keyword) : symbolKind c ≠ .keyword k := by
  unfold symbolKind
  split <;> simp

/-- Only words are keywords. -/
theorem read_of_keyword {lineStart : Bool} {c : Char} {cs : List Char} {k : Keyword}
    (h : (read lineStart c cs).kind = .keyword k) : isWordStart c = true := by
  unfold read at h
  split at h
  · unfold number at h
    dsimp only at h
    split at h <;> cases h
  · split at h
    · assumption
    · split at h
      · unfold string at h
        dsimp only at h
        split at h <;> cases h
      · unfold symbol at h
        split at h
        · split at h
          · cases h
          · cases h
          · cases h
          · exact absurd h (symbolKind_ne_keyword c k)
        · exact absurd h (symbolKind_ne_keyword c k)

theorem exists_keyword_read_iff (lineStart : Bool) {c : Char} {cs : List Char} :
    (∃ k, (read lineStart c cs).kind = .keyword k) ↔
      (Keyword.ofText? (String.ofList (splitWord (c :: cs)).1)).isSome = true := by
  by_cases hstart : isWordStart c = true
  · rw [read, startsNumber_of_isWordStart hstart, if_neg Bool.false_ne_true, if_pos hstart, word]
    dsimp only
    cases Keyword.ofText? (String.ofList (splitWord (c :: cs)).1) <;> simp
  · have happend := splitWord_append (c :: cs)
    constructor
    · rintro ⟨k, hk⟩
      exact absurd (read_of_keyword hk) hstart
    · intro hsome
      obtain ⟨k, hk⟩ := Option.isSome_iff_exists.mp hsome
      generalize (splitWord (c :: cs)).1 = text at hk happend
      cases text with
      | nil =>
        rw [Keyword.ofText?_nil] at hk
        cases hk
      | cons d ds =>
        obtain rfl : d = c := (List.cons.inj happend).1
        exact absurd (Keyword.isWordStart_of_ofText? hk) hstart

theorem startsFraction_cons_iff (lineStart : Bool) {c : Char} {cs : List Char} :
    startsFraction (c :: cs) = true ↔
      c = '.' ∧
        ((read lineStart c cs).kind = .number ∨ (read lineStart c cs).kind = .lineNumber) := by
  have hfraction : startsFraction (c :: cs) = true ↔ c = '.' ∧ startsNumber c cs = true := by
    unfold startsFraction
    split
    · rename_i d rest heq
      obtain ⟨rfl, rfl⟩ := List.cons.inj heq
      simp [startsNumber]
    · rename_i hnot
      simp only [Bool.false_eq_true, false_iff, not_and]
      rintro rfl hstarts
      cases cs with
      | nil => simp [startsNumber] at hstarts
      | cons d ds => exact hnot d ds rfl
  rw [hfraction]
  refine and_congr_right fun _ => ⟨fun hstarts => ?_, fun hkind => (read_of_number hkind).1⟩
  rw [read, if_pos hstarts, number]
  dsimp only
  split
  · exact .inr rfl
  · exact .inl rfl

/-- The characters of a lexeme are told by its kind and its text. -/
theorem Spelling.source_eq {l : Lexeme} (h : l.Spelling)
    (hclosed : l.kind = .illegal → String.ofList l.text ≠ Token.unterminated) :
    l.source = l.kind.lexeme (String.ofList l.text) := by
  unfold Kind.lexeme
  split
  · rename_i hstring
    rw [h.string hstring, String.toList_ofList]
  · rename_i hstring
    rw [h.plain hstring hclosed, String.toList_ofList]

end Lexeme

namespace Scanner

variable {s s' : Scanner}

theorem position_nextLexeme (s : Scanner) :
    s.nextLexeme.1.position = s.position.after (s.rest.takeWhile isGap) := by
  cases hrest : s.skipGap.rest with
  | nil =>
    rw [nextLexeme_of_nil hrest]
    rfl
  | cons c cs =>
    rw [nextLexeme_of_cons hrest]
    rfl

/-- A keyword follows if it is the next token, and on the same line. -/
theorem keywordFollows_iff (hremark : s.remark = false) :
    Lexeme.keywordFollows s.rest = true ↔
      (∃ k, s.next.1.kind = .keyword k) ∧ s.next.1.line = s.position.line := by
  have hsplit : s.rest.takeWhile isSpace ++ s.rest.dropWhile isSpace = s.rest :=
    List.takeWhile_append_dropWhile
  have hspaces : ∀ c ∈ s.rest.takeWhile isSpace, isSpace c = true :=
    fun c hc => List.mem_takeWhile_imp hc
  have hgaps : ∀ c ∈ s.rest.takeWhile isSpace, isGap c = true := by
    intro c hc
    rw [isGap, hspaces c hc, Bool.true_or]
  have hline : s.next.1.line = s.position.line + (s.rest.takeWhile isGap).count '\n' := by
    rw [next_of_not_remark hremark, Token.line, position_nextLexeme, Position.line_after]
  rw [Lexeme.keywordFollows_eq]
  cases hdrop : s.rest.dropWhile isSpace with
  | nil =>
    have hrest : s.skipGap.rest = [] := by
      rw [skipGap_rest, ← hsplit, hdrop, List.append_nil]
      exact List.dropWhile_eq_nil_iff.mpr hgaps
    have hword : (Lexeme.splitWord []).1 = [] := rfl
    rw [next_of_not_remark hremark, nextLexeme_of_nil hrest, hword, Keyword.ofText?_nil]
    simp [Token.endAt]
  | cons c cs =>
    rw [hdrop] at hsplit
    by_cases hnewline : c = '\n'
    · subst hnewline
      have htake : s.rest.takeWhile isGap =
          s.rest.takeWhile isSpace ++ '\n' :: cs.takeWhile isGap := by
        conv_lhs =>
          rw [← hsplit, List.takeWhile_append_of_pos hgaps, List.takeWhile_cons_of_pos (by decide)]
      rw [Lexeme.splitWord_of_breaks (Lexeme.breaks_newline cs), Keyword.ofText?_nil, hline, htake]
      simp
    · have hgap : isGap c = false := by simp [isGap, Lexeme.head_dropWhile hdrop, hnewline]
      have hhead : ∀ d ∈ (c :: cs).head?, isGap d = false := by simpa using hgap
      obtain ⟨htake, hrest⟩ := Lexeme.takeWhile_dropWhile_append hgaps hhead
      rw [hsplit] at htake hrest
      have hcount : (s.rest.takeWhile isGap).count '\n' = 0 := by
        rw [htake]
        exact List.count_eq_zero.mpr fun hmem => (isBlank_of_isSpace (hspaces _ hmem)).2 rfl
      rw [hline, hcount, next_of_not_remark hremark, nextLexeme_of_cons hrest,
        ← Lexeme.exists_keyword_read_iff s.skipGap.lineStart]
      simp

theorem isBlank_of_head_of_takeWhile (h : s.rest.takeWhile isGap ≠ []) :
    ∀ c ∈ s.rest.head?, Text.isBlank c = true := by
  intro c hc
  obtain ⟨cs, hcs⟩ := List.head?_eq_some_iff.mp hc
  by_cases hgap : isGap c = true
  · exact isBlank_of_isGap hgap
  · rw [hcs, List.takeWhile_cons_of_neg hgap] at h
    exact absurd rfl h

theorem startsFraction_of_isBlank {r : List Char} (h : ∀ c ∈ r.head?, Text.isBlank c = true) :
    Lexeme.startsFraction r = false := by
  unfold Lexeme.startsFraction
  split
  · exact Bool.noConfusion (h '.' rfl)
  · rfl

/-- Where no gap comes before the next token, that token tells the first character. -/
theorem looksAlike_of_takeWhile (hremark : s.remark = false) (hremark' : s'.remark = false)
    (hnext : s.next.1 = s'.next.1) (hclosed : ¬ s.next.1.IsUnterminated)
    (hgap : s.rest.takeWhile isGap = []) (hgap' : s'.rest.takeWhile isGap = []) :
    Lexeme.SameHead s.rest s'.rest ∧
      Lexeme.startsFraction s.rest = Lexeme.startsFraction s'.rest := by
  have hskip : ∀ {s : Scanner}, s.rest.takeWhile isGap = [] → s.skipGap.rest = s.rest := by
    intro s h
    have hsplit : s.rest.takeWhile isGap ++ s.rest.dropWhile isGap = s.rest :=
      List.takeWhile_append_dropWhile
    rwa [h, List.nil_append] at hsplit
  rw [next_of_not_remark hremark] at hnext hclosed
  rw [next_of_not_remark hremark'] at hnext
  cases hrest : s.rest with
  | nil =>
    have hend := nextLexeme_of_nil ((hskip hgap).trans hrest)
    have hrest' := nextLexeme_end (s := s') (by rw [← hnext, hend]; rfl)
    rw [← hskip hgap', hrest']
    exact ⟨.inl rfl, rfl⟩
  | cons c cs =>
    have hread := nextLexeme_of_cons ((hskip hgap).trans hrest)
    cases hrest' : s'.rest with
    | nil =>
      rw [hread, nextLexeme_of_nil ((hskip hgap').trans hrest')] at hnext
      exact absurd (congrArg Token.kind hnext) (Lexeme.spelling_read _ c cs).kind_ne_end
    | cons d ds =>
      have hread' := nextLexeme_of_cons ((hskip hgap').trans hrest')
      rw [hread] at hclosed
      rw [hread, hread'] at hnext
      obtain ⟨hkind, htext, _⟩ := Token.mk.inj hnext
      have hsource :=
        (Lexeme.spelling_read s.skipGap.lineStart c cs).source_eq fun hk ht => hclosed ⟨hk, ht⟩
      have hsource' := (Lexeme.spelling_read s'.skipGap.lineStart d ds).source_eq
        fun hk ht => hclosed ⟨hkind.trans hk, htext.trans ht⟩
      have happend := Lexeme.source_append_rest s.skipGap.lineStart c cs
      have happend' := Lexeme.source_append_rest s'.skipGap.lineStart d ds
      have hne := Lexeme.source_ne_nil s.skipGap.lineStart c cs
      rw [hsource] at happend hne
      rw [hsource', ← hkind, ← htext] at happend'
      obtain ⟨e, es, hes⟩ := List.exists_cons_of_ne_nil hne
      rw [hes] at happend happend'
      obtain rfl : e = c := (List.cons.inj happend).1
      obtain rfl : e = d := (List.cons.inj happend').1
      refine ⟨.inl rfl, ?_⟩
      rw [Bool.eq_iff_iff, Lexeme.startsFraction_cons_iff s.skipGap.lineStart,
        Lexeme.startsFraction_cons_iff s'.skipGap.lineStart, hkind]

/-- Behind a token that is not `REM`, rests with the same next token at the same place look
alike. -/
theorem looksAlike_of_next (hposition : s.position = s'.position) (hremark : s.remark = false)
    (hremark' : s'.remark = false) (hnext : s.next.1 = s'.next.1)
    (hclosed : ¬ s.next.1.IsUnterminated) : Lexeme.LooksAlike s.rest s'.rest := by
  have hkeyword : Lexeme.keywordFollows s.rest = Lexeme.keywordFollows s'.rest := by
    rw [Bool.eq_iff_iff, keywordFollows_iff hremark, keywordFollows_iff hremark', hnext, hposition]
  have hplace : s.position.after (s.rest.takeWhile isGap) =
      s.position.after (s'.rest.takeWhile isGap) := by
    have hplace := congrArg Token.position hnext
    rwa [next_of_not_remark hremark, next_of_not_remark hremark', position_nextLexeme,
      position_nextLexeme, ← hposition] at hplace
  by_cases hgap : s.rest.takeWhile isGap = []
  · rw [hgap, Position.after_nil, eq_comm, Position.after_eq_self_iff] at hplace
    obtain ⟨hhead, hfraction⟩ := looksAlike_of_takeWhile hremark hremark' hnext hclosed hgap hplace
    exact ⟨hhead, hfraction, hkeyword⟩
  · have hgap' : s'.rest.takeWhile isGap ≠ [] := by
      intro hnil
      rw [hnil, Position.after_nil, Position.after_eq_self_iff] at hplace
      exact hgap hplace
    have hhead := isBlank_of_head_of_takeWhile hgap
    have hhead' := isBlank_of_head_of_takeWhile hgap'
    exact ⟨.inr ⟨hhead, hhead'⟩, by rw [startsFraction_of_isBlank hhead,
      startsFraction_of_isBlank hhead'], hkeyword⟩

/-! ## Behind `REM` -/

namespace RemarkParts

variable {spaces text blanks rest : List Char}

theorem text_eq_nil (h : s.RemarkParts spaces text blanks rest) (htake : s.takeRemark.1 = none) :
    text = [] := by
  rw [h.takeRemark_eq] at htake
  dsimp only at htake
  split at htake
  · exact List.isEmpty_iff.mp ‹_›
  · cases htake

theorem text_ne_nil {t : Token} (h : s.RemarkParts spaces text blanks rest)
    (htake : s.takeRemark.1 = some t) :
    text ≠ [] ∧ t = ⟨.string, String.ofList text, s.position.after spaces⟩ := by
  rw [h.takeRemark_eq] at htake
  dsimp only at htake
  split at htake
  · cases htake
  · exact ⟨fun hnil => ‹¬ _› (List.isEmpty_iff.mpr hnil), (Option.some.inj htake).symm⟩

theorem isBlank_of_head (h : s.RemarkParts spaces text blanks rest)
    (hspaces : spaces ≠ [] ∨ text = []) : ∀ c ∈ s.rest.head?, Text.isBlank c = true := by
  intro c hc
  rw [h.rest_eq] at hc
  rcases spaces with _ | ⟨d, spaces⟩
  · obtain rfl : text = [] := hspaces.resolve_left fun hne => hne rfl
    rcases blanks with _ | ⟨d, blanks⟩
    · rw [h.atLineEnd c hc]
      decide
    · obtain rfl : d = c := Option.some.inj hc
      exact (h.blankInLine d List.mem_cons_self).1
  · obtain rfl : d = c := Option.some.inj hc
    exact (h.blankInLine_spaces d List.mem_cons_self).1

end RemarkParts

theorem takeRemark_of_next (hline : s.position.line = s'.position.line) (hremark : s.remark = true)
    (hremark' : s'.remark = true) (hnext : s.next.1 = s'.next.1) (h : s.takeRemark.1 = none) :
    s'.takeRemark.1 = none := by
  by_contra hsome
  obtain ⟨t, ht⟩ := Option.ne_none_iff_exists'.mp hsome
  obtain ⟨spaces, text, blanks, rest, hparts⟩ := exists_remarkParts hremark'
  have hnext' : s'.next.1 = t := by rw [next_of_some ht]
  have hplace : t.line = s'.position.line := by
    rw [(hparts.text_ne_nil ht).2]
    exact hparts.line_after_spaces _
  have hlt := line_lt_of_takeRemark hremark h
    (by rw [hnext, hnext', kind_of_takeRemark ht]; exact Kind.noConfusion)
  rw [hnext, hnext', hplace, hline] at hlt
  exact Nat.lt_irrefl _ hlt

/-- Behind `REM`, rests with the same next token at the same place begin alike. -/
theorem sameHead_of_next (hposition : s.position = s'.position) (hremark : s.remark = true)
    (hremark' : s'.remark = true) (hnext : s.next.1 = s'.next.1) :
    Lexeme.SameHead s.rest s'.rest := by
  obtain ⟨spaces, text, blanks, rest, hparts⟩ := exists_remarkParts hremark
  obtain ⟨spaces', text', blanks', rest', hparts'⟩ := exists_remarkParts hremark'
  have hline := congrArg Position.line hposition
  cases htake : s.takeRemark.1 with
  | none =>
    have htake' := takeRemark_of_next hline hremark hremark' hnext htake
    exact .inr ⟨hparts.isBlank_of_head (.inr (hparts.text_eq_nil htake)),
      hparts'.isBlank_of_head (.inr (hparts'.text_eq_nil htake'))⟩
  | some t =>
    cases htake' : s'.takeRemark.1 with
    | none =>
      rw [takeRemark_of_next hline.symm hremark' hremark hnext.symm htake'] at htake
      cases htake
    | some t' =>
      obtain ⟨hne, rfl⟩ := hparts.text_ne_nil htake
      obtain ⟨_, rfl⟩ := hparts'.text_ne_nil htake'
      rw [next_of_some htake, next_of_some htake'] at hnext
      obtain ⟨_, htext, hplace⟩ := Token.mk.inj hnext
      rw [← hposition] at hplace
      obtain rfl : text = text' := String.ofList_injective htext
      by_cases hspaces : spaces = []
      · subst hspaces
        rw [Position.after_nil, eq_comm, Position.after_eq_self_iff] at hplace
        subst hplace
        obtain ⟨c, cs, rfl⟩ := List.exists_cons_of_ne_nil hne
        left
        rw [hparts.rest_eq, hparts'.rest_eq]
        rfl
      · have hspaces' : spaces' ≠ [] := by
          rintro rfl
          rw [Position.after_nil, Position.after_eq_self_iff] at hplace
          exact hspaces hplace
        exact .inr ⟨hparts.isBlank_of_head (.inl hspaces), hparts'.isBlank_of_head (.inl hspaces')⟩

end Scanner

end LineBasic
