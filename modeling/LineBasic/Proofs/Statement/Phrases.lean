import LineBasic.Proofs.Statement.Grammar

/-!
# Reading a statement gives what the grammar derives

What is read as a statement is a phrase of the grammar (`Statement.read_sound`). A phrase whose
tokens stand on one line is read as that statement, if the line ends behind it
(`Statement.Derives.complete`). The end of a line shows as the end of the source or as a number on
another line, and no statement can take either of them.
-/

namespace LineBasic

namespace Cursor

variable {c d : Cursor}

/-- A cursor that shows a token with some property, which the end token has not, stands before such
a token. -/
theorem peek_and_advance_iff {p : Token → Prop} (hp : ∀ t, p t → t.kind ≠ .endOfInput) :
    p c.peek ∧ c.advance = d ↔ ∃ t, p t ∧ c = d.prepend [t] := by
  constructor
  · rintro ⟨h, rfl⟩
    exact ⟨c.peek, h, eq_prepend_peek (hp _ h)⟩
  · rintro ⟨t, ht, rfl⟩
    exact ⟨ht, advance_prepend_cons [] (hp t ht)⟩

theorem expect_gives_iff {kind : Kind} {expected : String} {u : Unit} (hkind : kind ≠ .endOfInput) :
    (c.expect kind expected).Gives u d ↔ ∃ t, t.kind = kind ∧ c = d.prepend [t] := by
  rw [expect_gives]
  exact peek_and_advance_iff (p := fun t => t.kind = kind) fun t ht => ht ▸ hkind

theorem expectEqual_gives {u : Unit} :
    c.expectEqual.Gives u d ↔ ∃ t, t.kind = .operator .equal ∧ c = d.prepend [t] :=
  expect_gives_iff Kind.noConfusion

theorem expectKeyword_gives {k : Keyword} {u : Unit} :
    (c.expectKeyword k).Gives u d ↔ ∃ t, t.kind = .keyword k ∧ c = d.prepend [t] :=
  expect_gives_iff Kind.noConfusion

/-- The statement on a line is over, and a new program line or nothing follows. -/
def Ends (c : Cursor) (line : Nat) : Prop :=
  c.peek.kind = .endOfInput ∨ (c.peek.kind = .number ∨ c.peek.kind = .lineNumber) ∧
    c.peek.line ≠ line

theorem Ends.atEndOfStatement {line : Nat} (h : c.Ends line) : c.atEndOfStatement line = true := by
  unfold Cursor.atEndOfStatement
  rcases h with h | ⟨h | h, hline⟩ <;> simp_all

/-- What the next token cannot be at the end of a line. -/
theorem Ends.kind_ne {line : Nat} (h : c.Ends line) {kind : Kind} (hend : kind ≠ .endOfInput)
    (hnumber : kind ≠ .number) (hline : kind ≠ .lineNumber) : c.peek.kind ≠ kind := by
  rintro rfl
  rcases h with h | ⟨h | h, _⟩
  · exact hend h
  · exact hnumber h
  · exact hline h

end Cursor

/-- Tokens of a statement on a physical line. -/
def Token.OnLine (line : Nat) (ts : List Token) : Prop :=
  ∀ t ∈ ts, t.kind ≠ .lineNumber ∧ t.kind ≠ .endOfInput ∧ t.line = line

theorem Cursor.atEndOfStatement_prepend_cons {line : Nat} {t : Token} {ts : List Token} {d : Cursor}
    (h : Token.OnLine line (t :: ts)) : (d.prepend (t :: ts)).atEndOfStatement line = false := by
  obtain ⟨hnumber, hend, hline⟩ := h t List.mem_cons_self
  unfold Cursor.atEndOfStatement
  rw [Cursor.peek_prepend_cons]
  split
  · contradiction
  · contradiction
  · simp [hline]

theorem Ident.read_gives {c d : Cursor} {v : Ident} :
    (Ident.read c).Gives v d ↔ ∃ t, t.kind = .name ∧ c = d.prepend [t] ∧ .ofText t.text = v := by
  have hiff : (Ident.read c).Gives v d ↔
      (c.peek.kind = .name ∧ .ofText c.peek.text = v) ∧ c.advance = d := by
    unfold Ident.read
    rw [Reading.behindNext_gives]
    split <;> simp_all
  rw [hiff, Cursor.peek_and_advance_iff (p := fun t => t.kind = .name ∧ .ofText t.text = v)
    fun t ht => by simp [ht.1]]
  constructor
  · rintro ⟨t, ⟨ht, hv⟩, hc⟩
    exact ⟨t, ht, hc, hv⟩
  · rintro ⟨t, ht, hc, hv⟩
    exact ⟨t, ⟨ht, hv⟩, hc⟩

namespace Expr

/-- The next token is none that an expression could take. -/
def Closed (c : Cursor) : Prop :=
  (∀ op, c.peek.kind ≠ .operator op) ∧ c.peek.kind ≠ .leftParen

theorem closed_of_kind {c : Cursor} {t : Token} {ts : List Token} {k : Keyword}
    (h : t.kind = .keyword k) : Closed (c.prepend (t :: ts)) := by
  simp [Closed, h]

theorem closed_of_isSeparator {c : Cursor} {t : Token} {ts : List Token} (h : t.IsSeparator) :
    Closed (c.prepend (t :: ts)) := by
  rcases h with h | h <;> simp [Closed, h]

theorem closed_of_ends {c : Cursor} {line : Nat} (h : c.Ends line) : Closed c :=
  ⟨fun _ => h.kind_ne Kind.noConfusion Kind.noConfusion Kind.noConfusion,
    h.kind_ne Kind.noConfusion Kind.noConfusion Kind.noConfusion⟩

theorem exists_of_read_gives {c d : Cursor} {e : Expr} (h : (read c).Gives e d) :
    ∃ ts, c = d.prepend ts ∧ Derives .comparison ts e := by
  obtain ⟨ts, hc, hts, _⟩ := read_gives_iff.mp h
  exact ⟨ts, hc, hts⟩

theorem Derives.read_gives {ts : List Token} {e : Expr} {d : Cursor}
    (h : Derives .comparison ts e) (hd : Closed d) : (read (d.prepend ts)).Gives e d :=
  read_gives_iff.mpr ⟨ts, rfl, h, fun op hop => absurd hop (hd.1 op), fun _ _ _ => hd.2⟩

end Expr

namespace Statement

variable {line number : Nat} {c d : Cursor} {st : Statement}

/-! ## The readers, taken apart -/

theorem readItems_gives {es : List Expr} : (readItems line c).Gives es d ↔
    ∃ e c', (Expr.read c).Gives e c' ∧
      (¬ c'.peek.IsSeparator ∧ [e] = es ∧ c' = d ∨
        c'.peek.IsSeparator ∧ c'.advance.atEndOfStatement line = true ∧ [e] = es ∧ c'.advance = d ∨
        c'.peek.IsSeparator ∧ c'.advance.atEndOfStatement line = false ∧
          ∃ es', (readItems line c'.advance).Gives es' d ∧ e :: es' = es) := by
  rw [readItems, Reading.andThen_gives]
  simp only [exists_prop]
  apply exists_congr
  intro e
  apply exists_congr
  intro c'
  apply and_congr_right
  intro _
  split
  · rename_i hsep
    have hsep : c'.peek.IsSeparator := hsep
    rw [Reading.behindNext_gives]
    split <;> simp_all [Reading.map_gives]
  · rename_i hsep
    have hsep : ¬ c'.peek.IsSeparator := hsep
    simp [hsep]

theorem readAssign_gives : (readAssign c).Gives st d ↔
    ∃ v q c' e, v.kind = .name ∧ q.kind = .operator .equal ∧ c = c'.prepend [v, q] ∧
      (Expr.read c').Gives e d ∧ .assign (.ofText v.text) e = st := by
  simp only [readAssign, Reading.andThen_gives, Reading.map_gives, Ident.read_gives,
    Cursor.expectEqual_gives, exists_prop]
  constructor
  · rintro ⟨_, _, ⟨v, hv, rfl, rfl⟩, _, c', ⟨q, hq, rfl⟩, e, he, rfl⟩
    exact ⟨v, q, c', e, hv, hq, rfl, he, rfl⟩
  · rintro ⟨v, q, c', e, hv, hq, rfl, he, rfl⟩
    exact ⟨_, c'.prepend [q], ⟨v, hv, rfl, rfl⟩, (), c', ⟨q, hq, rfl⟩, e, he, rfl⟩

theorem readGoto_gives : (readGoto c).Gives st d ↔
    ∃ t n, t.IsTarget n ∧ c = d.prepend [t] ∧ .goto n = st := by
  have hiff : (readGoto c).Gives st d ↔
      (∃ n, c.peek.IsTarget n ∧ .goto n = st) ∧ c.advance = d := by
    unfold readGoto Token.toLineNumber Token.IsTarget
    rw [Reading.behindNext_gives]
    split
    · cases lineNumberOf? c.peek.text <;> simp_all
    · simp_all
  rw [hiff, Cursor.peek_and_advance_iff (p := fun t => ∃ n, t.IsTarget n ∧ .goto n = st) ?_]
  · constructor
    · rintro ⟨t, ⟨n, ht, rfl⟩, rfl⟩
      exact ⟨t, n, ht, rfl, rfl⟩
    · rintro ⟨t, n, ht, rfl, rfl⟩
      exact ⟨t, ⟨n, ht, rfl⟩, rfl⟩
  · rintro t ⟨n, ⟨ht | ht, _⟩, _⟩ <;> simp [ht]

theorem readPromptEnd_gives {u : Unit} :
    (readPromptEnd c).Gives u d ↔ ∃ t, t.IsSeparator ∧ c = d.prepend [t] := by
  have hiff : (readPromptEnd c).Gives u d ↔ c.peek.IsSeparator ∧ c.advance = d := by
    unfold readPromptEnd Token.IsSeparator
    rw [Reading.behindNext_gives]
    split
    · simp_all [or_comm]
    · simp_all
  rw [hiff, Cursor.peek_and_advance_iff]
  rintro t (ht | ht) <;> simp [ht]

theorem readInput_gives : (readInput c).Gives st d ↔
    (∃ v, v.kind = .name ∧ c = d.prepend [v] ∧ .input "" (.ofText v.text) = st) ∨
      ∃ s t v, s.kind = .string ∧ t.IsSeparator ∧ v.kind = .name ∧ c = d.prepend [s, t, v] ∧
        .input s.text (.ofText v.text) = st := by
  unfold readInput
  split
  · rename_i hstring
    simp only [Reading.behindNext_gives, Reading.andThen_gives, Reading.map_gives,
      readPromptEnd_gives, Ident.read_gives, exists_prop]
    constructor
    · rintro ⟨_, _, ⟨t, ht, hc⟩, _, ⟨v, hv, rfl, rfl⟩, rfl⟩
      have hprepend := Expr.eq_prepend_of_kind hstring Kind.noConfusion
      rw [hc] at hprepend
      exact .inr ⟨c.peek, t, v, hstring, ht, hv, hprepend, rfl⟩
    · rintro (⟨v, hv, rfl, rfl⟩ | ⟨s, t, v, hs, ht, hv, rfl, rfl⟩)
      · cases hv.symm.trans hstring
      · have hadvance : (d.prepend [s, t, v]).advance = d.prepend [t, v] :=
          Expr.advance_prepend_of_kind hs Kind.noConfusion
        exact ⟨(), d.prepend [v], ⟨t, ht, hadvance⟩, _, ⟨v, hv, rfl, rfl⟩, rfl⟩
  · rename_i hstring
    simp only [Reading.map_gives, Ident.read_gives]
    constructor
    · rintro ⟨_, ⟨v, hv, rfl, rfl⟩, rfl⟩
      exact .inl ⟨v, hv, rfl, rfl⟩
    · rintro (⟨v, hv, rfl, rfl⟩ | ⟨s, t, v, hs, ht, hv, rfl, rfl⟩)
      · exact ⟨_, ⟨v, hv, rfl, rfl⟩, rfl⟩
      · exact absurd hs hstring

theorem readLoop_gives : (readLoop number c).Gives st d ↔
    ∃ v q c₁ start m c₂ limit c₃ step, v.kind = .name ∧ q.kind = .operator .equal ∧
      c = c₁.prepend [v, q] ∧
      (Expr.read c₁).Gives start (c₂.prepend [m]) ∧ m.kind = .keyword .TO ∧
        (Expr.read c₂).Gives limit c₃ ∧
      (readStep c₃).Gives step d ∧ .loop (.ofText v.text) start limit step number = st := by
  simp only [readLoop, Reading.andThen_gives, Reading.map_gives, Ident.read_gives,
    Cursor.expectEqual_gives, Cursor.expectKeyword_gives, exists_prop]
  constructor
  · rintro ⟨_, _, ⟨v, hv, rfl, rfl⟩, _, c₁, ⟨q, hq, rfl⟩, start, _, hstart, _, c₂, ⟨m, hm, rfl⟩,
      limit, c₃, hlimit, step, hstep, rfl⟩
    exact ⟨v, q, c₁, start, m, c₂, limit, c₃, step, hv, hq, rfl, hstart, hm, hlimit, hstep, rfl⟩
  · rintro ⟨v, q, c₁, start, m, c₂, limit, c₃, step, hv, hq, rfl, hstart, hm, hlimit, hstep, rfl⟩
    exact ⟨_, c₁.prepend [q], ⟨v, hv, rfl, rfl⟩, (), c₁, ⟨q, hq, rfl⟩, start, _, hstart, (), c₂,
      ⟨m, hm, rfl⟩, limit, c₃, hlimit, step, hstep, rfl⟩

theorem readStep_gives {e : Expr} : (readStep c).Gives e d ↔
    c.peek.kind ≠ .keyword .STEP ∧ .number 1 = e ∧ c = d ∨
      ∃ l c', l.kind = .keyword .STEP ∧ c = c'.prepend [l] ∧ (Expr.read c').Gives e d := by
  unfold readStep
  split
  · rename_i hstep
    rw [Reading.behindNext_gives]
    constructor
    · intro h
      exact .inr ⟨c.peek, c.advance, hstep, Expr.eq_prepend_of_kind hstep Kind.noConfusion, h⟩
    · rintro (⟨hne, _⟩ | ⟨l, c', hl, rfl, h⟩)
      · exact absurd hstep hne
      · rwa [Expr.advance_prepend_of_kind hl Kind.noConfusion]
  · rename_i hstep
    rw [Reading.ok_gives]
    constructor
    · intro h
      exact .inl ⟨hstep, h⟩
    · rintro (⟨_, h⟩ | ⟨l, c', hl, rfl, _⟩)
      · exact h
      · exact absurd hl hstep

theorem readNext_gives : (readNext line c).Gives st d ↔
    ¬ (c.peek.kind = .name ∧ !c.atEndOfStatement line) ∧ .next none = st ∧ c = d ∨
      c.atEndOfStatement line = false ∧
        ∃ v, v.kind = .name ∧ c = d.prepend [v] ∧ .next (some (.ofText v.text)) = st := by
  unfold readNext
  split
  · rename_i h
    simp only [Reading.map_gives, Ident.read_gives]
    constructor
    · rintro ⟨_, ⟨v, hv, rfl, rfl⟩, rfl⟩
      exact .inr ⟨by simpa using h.2, v, hv, rfl, rfl⟩
    · rintro (⟨hne, _⟩ | ⟨_, v, hv, rfl, rfl⟩)
      · exact absurd h hne
      · exact ⟨_, ⟨v, hv, rfl, rfl⟩, rfl⟩
  · rename_i h
    rw [Reading.ok_gives]
    constructor
    · exact fun hst => .inl ⟨h, hst⟩
    · rintro (⟨_, hst⟩ | ⟨hline, v, hv, rfl, _⟩)
      · exact hst
      · exact absurd ⟨hv, by simp [hline]⟩ h

theorem readRemark_gives : (readRemark line c).Gives st d ↔
    ¬ (c.peek.kind = .string ∧ !c.atEndOfStatement line) ∧ .remark "" = st ∧ c = d ∨
      c.atEndOfStatement line = false ∧ ∃ s, s.kind = .string ∧ c = d.prepend [s] ∧
        .remark s.text = st := by
  unfold readRemark
  split
  · rename_i h
    rw [Reading.behindNext_gives, Reading.ok_gives]
    constructor
    · rintro ⟨rfl, rfl⟩
      exact .inr ⟨by simpa using h.2, c.peek, h.1,
        Expr.eq_prepend_of_kind h.1 Kind.noConfusion, rfl⟩
    · rintro (⟨hne, _⟩ | ⟨_, s, hs, rfl, rfl⟩)
      · exact absurd h hne
      · exact ⟨rfl, Expr.advance_prepend_of_kind hs Kind.noConfusion⟩
  · rename_i h
    rw [Reading.ok_gives]
    constructor
    · exact fun hst => .inl ⟨h, hst⟩
    · rintro (⟨_, hst⟩ | ⟨hline, s, hs, rfl, _⟩)
      · exact hst
      · exact absurd ⟨hs, by simp [hline]⟩ h

/-- A statement without a keyword is an assignment. -/
theorem read_gives_of_name (h : c.peek.kind = .name) :
    (read line number c).Gives st d ↔ (readAssign c).Gives st d := by
  rw [read]
  split <;> simp_all

/-- Reads what stands behind a keyword. -/
def readBehind (line number : Nat) (t : Token) (k : Keyword) (c : Cursor) : Reading Statement c :=
  match k with
  | .END => .ok .stop
  | .FOR => readLoop number c
  | .GOTO => readGoto c
  | .IF =>
    (Expr.read c).andThen fun condition d _ =>
      (d.expectKeyword .THEN).andThen fun _ d _ =>
        if d.peek.kind = .number then (readGoto d).map (.cond condition)
        else (read line number d).map (.cond condition)
  | .INPUT => readInput c
  | .LET => readAssign c
  | .NEXT => readNext line c
  | .PRINT => readPrint line c
  | .REM => readRemark line c
  | .STEP | .THEN | .TO => .error (t.syntaxError ("expected statement, found " ++ k.text))

theorem read_gives_of_keyword {k : Keyword} (h : c.peek.kind = .keyword k) :
    (read line number c).Gives st d ↔ (readBehind line number c.peek k c.advance).Gives st d := by
  rw [read]
  split
  · rename_i hname
    cases h.symm.trans hname
  · rename_i k' hk'
    obtain rfl : k = k' := Kind.keyword.inj (h.symm.trans hk')
    rw [Reading.behindNext_gives]
    cases k <;> exact Iff.rfl
  · rename_i hne
    exact absurd h (hne k)

/-- Only a name or a keyword begins a statement. -/
theorem not_read_gives (hname : c.peek.kind ≠ .name) (hkeyword : ∀ k, c.peek.kind ≠ .keyword k) :
    ¬ (read line number c).Gives st d := by
  rw [read]
  split
  · contradiction
  · rename_i k hk
    exact absurd hk (hkeyword k)
  · exact Reading.error_gives

theorem readBehind_cond_gives {t : Token} : (readBehind line number t .IF c).Gives st d ↔
    ∃ e m c' body, (Expr.read c).Gives e (c'.prepend [m]) ∧ m.kind = .keyword .THEN ∧
      .cond e body = st ∧
      (c'.peek.kind = .number ∧ (readGoto c').Gives body d ∨
        c'.peek.kind ≠ .number ∧ (read line number c').Gives body d) := by
  simp only [readBehind, Reading.andThen_gives, Cursor.expectKeyword_gives, exists_prop]
  constructor
  · rintro ⟨e, _, he, _, c', ⟨m, hm, rfl⟩, h⟩
    split at h
    · rename_i hnumber
      obtain ⟨body, hbody, rfl⟩ := Reading.map_gives.mp h
      exact ⟨e, m, c', body, he, hm, rfl, .inl ⟨hnumber, hbody⟩⟩
    · rename_i hnumber
      obtain ⟨body, hbody, rfl⟩ := Reading.map_gives.mp h
      exact ⟨e, m, c', body, he, hm, rfl, .inr ⟨hnumber, hbody⟩⟩
  · rintro ⟨e, m, c', body, he, hm, rfl, h⟩
    refine ⟨e, _, he, (), c', ⟨m, hm, rfl⟩, ?_⟩
    rcases h with ⟨hnumber, hbody⟩ | ⟨hnumber, hbody⟩
    · rw [if_pos hnumber]
      exact Reading.map_gives.mpr ⟨body, hbody, rfl⟩
    · rw [if_neg hnumber]
      exact Reading.map_gives.mpr ⟨body, hbody, rfl⟩

/-! ## What is read is derived -/

theorem readItems_sound {line : Nat} {c d : Cursor} {es : List Expr}
    (h : (readItems line c).Gives es d) : ∃ ts, c = d.prepend ts ∧ DerivesItems ts es := by
  obtain ⟨e, c', he, hrest⟩ := readItems_gives.mp h
  obtain ⟨ts, hc, hts⟩ := Expr.exists_of_read_gives he
  rcases hrest with ⟨_, rfl, rfl⟩ | ⟨hsep, _, rfl, rfl⟩ | ⟨hsep, _, es', hes, rfl⟩
  · exact ⟨ts, hc, .last hts⟩
  · have hc' := Cursor.eq_prepend_peek hsep.isLegal.2
    refine ⟨ts ++ [c'.peek], ?_, .closed hts hsep⟩
    rw [Cursor.prepend_append, ← hc', hc]
  · have hc' := Cursor.eq_prepend_peek hsep.isLegal.2
    obtain ⟨us, hus, hitems⟩ := readItems_sound hes
    refine ⟨ts ++ c'.peek :: us, ?_, .more hts hsep hitems⟩
    rw [hus, ← Cursor.prepend_append] at hc'
    rw [Cursor.prepend_append, hc]
    exact congrArg _ hc'
termination_by c.size
decreasing_by
  have := he.size_le
  have := Cursor.size_advance_lt hsep.isLegal.2
  omega

theorem readLoop_sound {k : Token} (hk : k.kind = .keyword .FOR)
    (h : (readLoop number c).Gives st d) :
    ∃ ts, c = d.prepend ts ∧ Derives number (k :: ts) st := by
  obtain ⟨v, q, c₁, start, m, c₂, limit, c₃, step, hv, hq, rfl, hstart, hm, hlimit, hstep, rfl⟩ :=
    readLoop_gives.mp h
  obtain ⟨ts, rfl, hts⟩ := Expr.exists_of_read_gives hstart
  obtain ⟨us, rfl, hus⟩ := Expr.exists_of_read_gives hlimit
  rcases readStep_gives.mp hstep with ⟨_, rfl, rfl⟩ | ⟨l, c', hl, rfl, hread⟩
  · refine ⟨v :: q :: (ts ++ m :: us), ?_, .loop hk hv hq hts hm hus⟩
    simp [Cursor.prepend]
  · obtain ⟨vs, rfl, hvs⟩ := Expr.exists_of_read_gives hread
    refine ⟨v :: q :: (ts ++ m :: (us ++ l :: vs)), ?_, .loopStep hk hv hq hts hm hus hl hvs⟩
    simp [Cursor.prepend]

/-- What is read as a statement is a phrase of the grammar. -/
theorem read_sound {line number : Nat} {c d : Cursor} {st : Statement}
    (h : (read line number c).Gives st d) : ∃ ts, c = d.prepend ts ∧ Derives number ts st := by
  by_cases hname : c.peek.kind = .name
  · obtain ⟨v, q, c', e, hv, hq, rfl, he, rfl⟩ :=
      readAssign_gives.mp ((read_gives_of_name hname).mp h)
    obtain ⟨ts, rfl, hts⟩ := Expr.exists_of_read_gives he
    exact ⟨v :: q :: ts, rfl, .assign hv hq hts⟩
  by_cases hkeyword : ∃ k, c.peek.kind = .keyword k
  case neg => exact absurd h (not_read_gives hname fun k hk => hkeyword ⟨k, hk⟩)
  obtain ⟨k, hk⟩ := hkeyword
  replace h := (read_gives_of_keyword hk).mp h
  -- It is enough to find the tokens behind the keyword.
  suffices hbehind : ∃ ts, c.advance = d.prepend ts ∧ Derives number (c.peek :: ts) st by
    obtain ⟨ts, hadvance, hts⟩ := hbehind
    have hc := Expr.eq_prepend_of_kind hk Kind.noConfusion
    rw [hadvance] at hc
    exact ⟨c.peek :: ts, hc, hts⟩
  cases k with
  | END =>
    obtain ⟨rfl, hd⟩ := Reading.ok_gives.mp h
    exact ⟨[], hd, .stop hk⟩
  | FOR => exact readLoop_sound hk h
  | GOTO =>
    obtain ⟨t, n, ht, hd, rfl⟩ := readGoto_gives.mp h
    exact ⟨[t], hd, .goto hk ht⟩
  | IF =>
    obtain ⟨e, m, c', body, he, hm, rfl, hbody⟩ := readBehind_cond_gives.mp h
    obtain ⟨ts, hadvance, hts⟩ := Expr.exists_of_read_gives he
    rcases hbody with ⟨hnumber, hgoto⟩ | ⟨_, hread⟩
    · obtain ⟨t, n, ht, rfl, rfl⟩ := readGoto_gives.mp hgoto
      refine ⟨ts ++ [m, t], ?_, .condGoto hk hts hm hnumber ht⟩
      rw [hadvance, Cursor.prepend_append]
      rfl
    · obtain ⟨us, hus, hderives⟩ := read_sound hread
      refine ⟨ts ++ m :: us, ?_, .cond hk hts hm hderives⟩
      rw [hadvance, hus, Cursor.prepend_append]
      rfl
  | INPUT =>
    rcases readInput_gives.mp h with ⟨v, hv, hd, rfl⟩ | ⟨s, t, v, hs, ht, hv, hd, rfl⟩
    · exact ⟨[v], hd, .input hk hv⟩
    · exact ⟨[s, t, v], hd, .inputPrompt hk hs ht hv⟩
  | LET =>
    obtain ⟨v, q, c', e, hv, hq, hadvance, he, rfl⟩ := readAssign_gives.mp h
    obtain ⟨ts, rfl, hts⟩ := Expr.exists_of_read_gives he
    exact ⟨v :: q :: ts, hadvance, .assignLet hk hv hq hts⟩
  | NEXT =>
    rcases readNext_gives.mp h with ⟨_, rfl, hd⟩ | ⟨_, v, hv, hd, rfl⟩
    · exact ⟨[], hd, .next hk⟩
    · exact ⟨[v], hd, .nextOf hk hv⟩
  | PRINT =>
    change (readPrint line c.advance).Gives st d at h
    unfold readPrint at h
    split at h
    · obtain ⟨rfl, hd⟩ := Reading.ok_gives.mp h
      exact ⟨[], hd, .print hk⟩
    · obtain ⟨es, hes, rfl⟩ := Reading.map_gives.mp h
      obtain ⟨ts, hd, hts⟩ := readItems_sound hes
      exact ⟨ts, hd, .printItems hk hts⟩
  | REM =>
    rcases readRemark_gives.mp h with ⟨_, rfl, hd⟩ | ⟨_, s, hs, hd, rfl⟩
    · exact ⟨[], hd, .rem hk⟩
    · exact ⟨[s], hd, .remark hk hs⟩
  | STEP | THEN | TO => exact absurd h Reading.error_gives
termination_by c.size
decreasing_by
  have := Cursor.size_advance_lt (c := c) (by rw [hk]; exact Kind.noConfusion)
  have := he.size_le
  simp only [Cursor.size_prepend] at this
  omega

/-! ## What is derived is read -/

theorem DerivesItems.exists_cons {ts : List Token} {es : List Expr} (h : DerivesItems ts es) :
    ∃ t us, ts = t :: us := by
  cases h with
  | last h =>
    obtain ⟨t, us, rfl, _⟩ := h.exists_cons
    exact ⟨t, us, rfl⟩
  | closed h _ | more h _ _ =>
    obtain ⟨t, us, rfl, _⟩ := h.exists_cons
    exact ⟨t, _, List.cons_append⟩

theorem DerivesItems.complete {ts : List Token} {es : List Expr} (h : DerivesItems ts es)
    (hline : Token.OnLine line ts) (hd : d.Ends line) :
    (readItems line (d.prepend ts)).Gives es d := by
  induction h with
  | last h =>
    have hsep : ¬ d.peek.IsSeparator := by
      rintro (hsep | hsep)
      · exact absurd hsep (hd.kind_ne Kind.noConfusion Kind.noConfusion Kind.noConfusion)
      · exact absurd hsep (hd.kind_ne Kind.noConfusion Kind.noConfusion Kind.noConfusion)
    exact readItems_gives.mpr ⟨_, d, h.read_gives (Expr.closed_of_ends hd), .inl ⟨hsep, rfl, rfl⟩⟩
  | @closed ts t e h ht =>
    have hadvance : (d.prepend [t]).advance = d := Cursor.advance_prepend_cons [] ht.isLegal.2
    rw [Cursor.prepend_append]
    refine readItems_gives.mpr ⟨e, _, h.read_gives (Expr.closed_of_isSeparator ht),
      .inr (.inl ⟨ht, ?_, rfl, hadvance⟩)⟩
    rw [hadvance]
    exact hd.atEndOfStatement
  | @more ts us t e es h ht hs ih =>
    have hadvance : (d.prepend (t :: us)).advance = d.prepend us :=
      Cursor.advance_prepend_cons us ht.isLegal.2
    have hus : Token.OnLine line us :=
      (List.forall_mem_cons.mp (List.forall_mem_append.mp hline).2).2
    have hrest := ih hus
    rw [Cursor.prepend_append]
    refine readItems_gives.mpr ⟨e, _, h.read_gives (Expr.closed_of_isSeparator ht),
      .inr (.inr ⟨ht, ?_, es, ?_, rfl⟩)⟩
    · rw [hadvance]
      obtain ⟨u, vs, rfl⟩ := hs.exists_cons
      exact Cursor.atEndOfStatement_prepend_cons hus
    · rwa [hadvance]

theorem Derives.exists_cons {ts : List Token} (h : Derives number ts st) :
    ∃ t us, ts = t :: us ∧ t.kind ≠ .number := by
  cases h with
  | assign hk _ _ | assignLet hk _ _ _ | print hk | printItems hk _ | input hk _
  | inputPrompt hk _ _ _ | goto hk _
  | condGoto hk _ _ _ _ | cond hk _ _ _ | loop hk _ _ _ _ _ | loopStep hk _ _ _ _ _ _ _ | next hk
  | nextOf hk _
  | rem hk | remark hk _ | stop hk => exact ⟨_, _, rfl, by simp [hk]⟩

/-- Reading behind a keyword is reading from the keyword on. -/
theorem read_gives_of_readBehind {k : Token} {keyword : Keyword} {ts : List Token}
    (hk : k.kind = .keyword keyword)
    (h : (readBehind line number k keyword (d.prepend ts)).Gives st d) :
    (read line number (d.prepend (k :: ts))).Gives st d := by
  apply (read_gives_of_keyword (c := d.prepend (k :: ts)) hk).mpr
  rwa [Expr.advance_prepend_of_kind hk Kind.noConfusion]

/-- A statement on a line is read, if the line ends behind it. -/
theorem Derives.complete {ts : List Token} (h : Derives number ts st) (hline : Token.OnLine line ts)
    (hd : d.Ends line) : (read line number (d.prepend ts)).Gives st d := by
  have hclosed := Expr.closed_of_ends hd
  have hend := hd.atEndOfStatement
  induction h with
  | @assign v q ts e hv hq h =>
    refine (read_gives_of_name (c := d.prepend (v :: q :: ts)) hv).mpr (readAssign_gives.mpr ?_)
    exact ⟨v, q, d.prepend ts, e, hv, hq, rfl, h.read_gives hclosed, rfl⟩
  | @assignLet k v q ts e hk hv hq h =>
    refine read_gives_of_readBehind hk (readAssign_gives.mpr ?_)
    exact ⟨v, q, d.prepend ts, e, hv, hq, rfl, h.read_gives hclosed, rfl⟩
  | print hk =>
    refine read_gives_of_readBehind hk ?_
    change (readPrint line d).Gives _ d
    rw [readPrint, if_pos hend]
    exact Reading.ok_gives.mpr ⟨rfl, rfl⟩
  | @printItems k ts es hk h =>
    have hts : Token.OnLine line ts := (List.forall_mem_cons.mp hline).2
    have hitems := h.complete hts hd
    refine read_gives_of_readBehind hk ?_
    change (readPrint line (d.prepend ts)).Gives _ d
    have hfirst : (d.prepend ts).atEndOfStatement line = false := by
      obtain ⟨t, us, rfl⟩ := h.exists_cons
      exact Cursor.atEndOfStatement_prepend_cons hts
    rw [readPrint, if_neg (by simp [hfirst])]
    exact Reading.map_gives.mpr ⟨es, hitems, rfl⟩
  | @input k v hk hv =>
    exact read_gives_of_readBehind hk (readInput_gives.mpr (.inl ⟨v, hv, rfl, rfl⟩))
  | @inputPrompt k s t v hk hs ht hv =>
    exact read_gives_of_readBehind hk (readInput_gives.mpr (.inr ⟨s, t, v, hs, ht, hv, rfl, rfl⟩))
  | @goto k t n hk ht => exact read_gives_of_readBehind hk (readGoto_gives.mpr ⟨t, n, ht, rfl, rfl⟩)
  | @condGoto k m t ts e n hk h hm hkind ht =>
    refine read_gives_of_readBehind hk (readBehind_cond_gives.mpr ?_)
    rw [Cursor.prepend_append]
    refine ⟨e, m, d.prepend [t], .goto n, h.read_gives (Expr.closed_of_kind hm), hm, rfl,
      .inl ⟨hkind, ?_⟩⟩
    exact readGoto_gives.mpr ⟨t, n, ht, rfl, rfl⟩
  | @cond k m ts us e body hk h hm hs ih =>
    have hus : Token.OnLine line us :=
      (List.forall_mem_cons.mp (List.forall_mem_append.mp (List.forall_mem_cons.mp hline).2).2).2
    have hfirst : (d.prepend us).peek.kind ≠ .number := by
      obtain ⟨u, vs, rfl, hu⟩ := hs.exists_cons
      exact hu
    refine read_gives_of_readBehind hk (readBehind_cond_gives.mpr ?_)
    rw [Cursor.prepend_append]
    exact ⟨e, m, d.prepend us, body, h.read_gives (Expr.closed_of_kind hm), hm, rfl,
      .inr ⟨hfirst, ih hus⟩⟩
  | @loop k v q m ts us start limit hk hv hq hstart hm hlimit =>
    refine read_gives_of_readBehind hk (readLoop_gives.mpr ?_)
    refine ⟨v, q, ((d.prepend us).prepend [m]).prepend ts, start, m, d.prepend us, limit, d,
      .number 1, hv, hq, ?_,
      hstart.read_gives (Expr.closed_of_kind hm), hm, hlimit.read_gives hclosed, ?_, rfl⟩
    · simp [Cursor.prepend]
    · exact readStep_gives.mpr
        (.inl ⟨hd.kind_ne Kind.noConfusion Kind.noConfusion Kind.noConfusion, rfl, rfl⟩)
  | @loopStep k v q m l ts us vs start limit step hk hv hq hstart hm hlimit hl hstep =>
    refine read_gives_of_readBehind hk (readLoop_gives.mpr ?_)
    refine ⟨v, q, (((d.prepend (l :: vs)).prepend us).prepend [m]).prepend ts, start, m,
      (d.prepend (l :: vs)).prepend us, limit, d.prepend (l :: vs), step, hv, hq, ?_,
      hstart.read_gives (Expr.closed_of_kind hm), hm,
        hlimit.read_gives (Expr.closed_of_kind hl), ?_, rfl⟩
    · simp [Cursor.prepend]
    · exact readStep_gives.mpr (.inr ⟨l, d.prepend vs, hl, rfl, hstep.read_gives hclosed⟩)
  | next hk =>
    exact read_gives_of_readBehind hk (readNext_gives.mpr (.inl ⟨by simp [hend], rfl, rfl⟩))
  | @nextOf k v hk hv =>
    refine read_gives_of_readBehind hk (readNext_gives.mpr (.inr ⟨?_, v, hv, rfl, rfl⟩))
    exact Cursor.atEndOfStatement_prepend_cons (List.forall_mem_cons.mp hline).2
  | rem hk =>
    exact read_gives_of_readBehind hk (readRemark_gives.mpr (.inl ⟨by simp [hend], rfl, rfl⟩))
  | @remark k s hk hs =>
    refine read_gives_of_readBehind hk (readRemark_gives.mpr (.inr ⟨?_, s, hs, rfl, rfl⟩))
    exact Cursor.atEndOfStatement_prepend_cons (List.forall_mem_cons.mp hline).2
  | stop hk => exact read_gives_of_readBehind hk (Reading.ok_gives.mpr ⟨rfl, rfl⟩)

end Statement

end LineBasic
