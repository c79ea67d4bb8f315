import LineBasic.Proofs.Token.Newline

/-!
# How tokens are spelled

What holds of every lexeme, of every remark and of the end token holds of every token of a source
(`Scanner.forall_mem_tokens`). So a number in a source is made of digits and points, and has no sign
(`Token.isDigit_or_point`).
-/

namespace LineBasic

namespace Lexeme

theorem isDigit_or_point_of_splitNumber {cs : List Char} {d : Char} (h : d ∈ (splitNumber cs).1) :
    d.isDigit = true ∨ d = '.' := by
  have hdigit : ∀ cs : List Char, d ∈ cs.takeWhile Char.isDigit → d.isDigit = true :=
    fun cs hmem => List.mem_takeWhile_imp hmem
  unfold splitNumber at h
  dsimp only at h
  split at h
  · split at h
    · rcases List.mem_append.mp h with hwhole | hfraction
      · exact .inl (hdigit _ hwhole)
      · exact (List.mem_cons.mp hfraction).symm.imp_left (hdigit _)
    · exact .inl (hdigit _ h)
  · exact .inl (hdigit _ h)

/-- Only numbers are numbers. -/
theorem read_of_number {lineStart : Bool} {c : Char} {cs : List Char}
    (h : (read lineStart c cs).kind = .number ∨ (read lineStart c cs).kind = .lineNumber) :
    startsNumber c cs = true ∧ read lineStart c cs = number lineStart (c :: cs) := by
  by_cases hnumber : startsNumber c cs = true
  · exact ⟨hnumber, if_pos hnumber⟩
  · exfalso
    have hsymbol : symbolKind c ≠ .number ∧ symbolKind c ≠ .lineNumber := by
      unfold symbolKind
      split <;> simp
    unfold read at h
    rw [if_neg hnumber] at h
    split at h
    · unfold word at h
      dsimp only at h
      split at h <;> simp at h
    · split at h
      · unfold string at h
        dsimp only at h
        split at h <;> simp at h
      · unfold symbol at h
        split at h
        · split at h <;> simp [hsymbol] at h
        · simp [hsymbol] at h

theorem isWordChar_of_isWordStart {c : Char} (h : isWordStart c = true) : isWordChar c = true := by
  simp only [isWordStart, isWordChar, Char.isAlphanum, Bool.or_eq_true] at h ⊢
  rcases h with h | h
  · exact .inl (.inl h)
  · exact .inr h

theorem exists_splitWord_cons {c : Char} (cs : List Char) (h : isWordStart c = true) :
    ∃ ds, (splitWord (c :: cs)).1 = c :: ds := by
  unfold splitWord
  simp only [List.takeWhile_cons, isWordChar_of_isWordStart h, ↓reduceIte]
  split
  · exact ⟨_, rfl⟩
  · exact ⟨_, rfl⟩

theorem kind_string_ne_name (cs : List Char) : (string cs).kind ≠ .name := by
  unfold string
  dsimp only
  split <;> simp

theorem kind_symbol_ne_name (c : Char) (cs : List Char) : (symbol c cs).kind ≠ .name := by
  have hsymbol : symbolKind c ≠ .name := by
    unfold symbolKind
    split <;> simp
  unfold symbol
  split
  · split <;> simp [hsymbol]
  · exact hsymbol

/-- Only words are names. -/
theorem read_of_name {lineStart : Bool} {c : Char} {cs : List Char}
    (h : (read lineStart c cs).kind = .name) :
    isWordStart c = true ∧ read lineStart c cs = word (c :: cs) := by
  unfold read at h ⊢
  split at h
  · unfold number at h
    dsimp only at h
    split at h <;> cases h
  · rename_i hnumber
    rw [if_neg hnumber]
    split at h
    · rename_i hword
      exact ⟨hword, if_pos hword⟩
    · split at h
      · exact absurd h (kind_string_ne_name cs)
      · exact absurd h (kind_symbol_ne_name c cs)

/-- A name begins with a letter or an underscore. -/
theorem exists_cons_of_name {lineStart : Bool} {c : Char} {cs : List Char}
    (h : (read lineStart c cs).kind = .name) :
    isWordStart c = true ∧ ∃ ds, (read lineStart c cs).text = c :: ds := by
  obtain ⟨hstart, hread⟩ := read_of_name h
  rw [hread]
  exact ⟨hstart, exists_splitWord_cons cs hstart⟩

end Lexeme

/-- What holds of every lexeme, of every remark and of the end token holds of every token. -/
theorem Scanner.forall_mem_tokens {P : Token → Prop} (hend : ∀ position, P (.endAt position))
    (hlexeme : ∀ lineStart c cs position,
    P ⟨(Lexeme.read lineStart c cs).kind, String.ofList (Lexeme.read lineStart c cs).text,
    position⟩) (hremark : ∀ (s : Scanner) t, s.takeRemark.1 = some t → P t) (s : Scanner) :
    ∀ t ∈ s.tokens, P t := by
  have hnextLexeme : ∀ s : Scanner, P s.nextLexeme.1 := by
    intro s
    cases hrest : s.skipGap.rest with
    | nil =>
      rw [nextLexeme_of_nil hrest]
      exact hend _
    | cons c cs =>
      rw [nextLexeme_of_cons hrest]
      exact hlexeme _ c cs _
  have hnext : P s.next.1 := by
    cases htaken : s.takeRemark.1 with
    | none =>
      rw [next_of_none htaken]
      exact hnextLexeme _
    | some t =>
      rw [next_of_some htaken]
      exact hremark s t htaken
  by_cases hkind : s.next.1.kind = .endOfInput
  · rw [tokens_of_end rfl hkind]
    exact List.forall_mem_singleton.mpr hnext
  · rw [tokens_of_ne_end hkind]
    exact List.forall_mem_cons.mpr ⟨hnext, forall_mem_tokens hend hlexeme hremark s.next.2⟩
termination_by s.rest.length
decreasing_by exact length_next_lt (by simpa [Token.isEnd] using hkind)

/-- A number in a source is made of digits and points. -/
theorem Token.isDigit_or_point (source : String) :
    ∀ t ∈ scan source, t.kind = .number ∨ t.kind = .lineNumber →
    ∀ d ∈ t.text.toList, d.isDigit = true ∨ d = '.' := by
  apply Scanner.forall_mem_tokens
  · intro position hkind
    rcases hkind with hkind | hkind <;> cases hkind
  · intro lineStart c cs position hkind d hd
    dsimp only at hkind hd
    rw [String.toList_ofList, (Lexeme.read_of_number hkind).2] at hd
    exact Lexeme.isDigit_or_point_of_splitNumber hd
  · intro s t ht hkind
    rw [Scanner.kind_of_takeRemark ht] at hkind
    rcases hkind with hkind | hkind <;> cases hkind

end LineBasic
