import LineBasic.Proofs.Names
import LineBasic.Proofs.Statement.ExprReader

/-!
# Reading gives exactly what the grammar derives

`Expr.readAt_sound` and the theorems around it show that what is read is a phrase of the grammar,
and that the reader stopped because nothing that follows could have been taken as well.
`Expr.Derives.complete` shows that a phrase is read whatever follows, as long as that could not have
been taken as well. So an expression is read from a position to another if and only if the tokens
between derive it (`Expr.read_gives_iff_derives`).
-/

namespace LineBasic

namespace Expr

/-! ## What is read is derived -/

theorem eq_prepend_of_kind {c : Cursor} {kind : Kind} (h : c.peek.kind = kind)
    (hkind : kind ≠ .endOfInput) : c = c.advance.prepend [c.peek] :=
  Cursor.eq_prepend_peek (h ▸ hkind)

/-- A name without arguments stands for what the grammar says. -/
theorem derives_ofName {t : Token} (ht : t.kind = .name) :
    Derives .atom [t] (ofName (.ofText t.text)) := by
  by_cases hf : ∃ f : Builtin, f.name = t.text.toUpper
  · obtain ⟨f, hf⟩ := hf
    rw [ofName_of_builtin hf]
    exact .builtin ht hf
  · have hf : ∀ f : Builtin, f.name ≠ t.text.toUpper := fun f h => hf ⟨f, h⟩
    rw [ofName_of_not_builtin hf]
    exact .var ht hf

mutual

/-- What is read with operators that bind at least as tightly as `least` is a phrase of their
level. -/
theorem readAt_sound {least : Nat} {c d : Cursor} {e : Expr} (h : (readAt least c).Gives e d) :
    ∃ ts, c = d.prepend ts ∧ Derives (.ofLeast least) ts e ∧ Stops least d ∧ Munched ts d := by
  obtain ⟨left, c', hl, hm⟩ := readAt_gives.mp h
  obtain ⟨ls, hc, hls, hmunched⟩ := readOperand_sound hl
  have hleast : Derives (.ofLeast least) ls left := hls.loosen (Level.rank_ofLeast_le_signed least)
  have hnext : ∀ op, c'.peek.kind = .operator op → Derives (.ofLeft op) ls left :=
    fun op _ => hls.loosen (Level.rank_ofLeft_le_signed op)
  obtain ⟨ts, hc', hts, hstops, hmunched⟩ := readMore_sound hleast hnext hmunched hm
  rw [hc', ← Cursor.prepend_append] at hc
  exact ⟨ls ++ ts, hc, hts, hstops, hmunched⟩
termination_by 3 * c.size + 2
decreasing_by
  · omega
  · have := hl.size_le
    omega

/-- Reading on behind a phrase makes it a longer one, if the phrase can be the left operand of what
follows. -/
theorem readMore_sound {least : Nat} {left e : Expr} {c d : Cursor} {ls : List Token}
    (hleast : Derives (.ofLeast least) ls left)
    (hnext : ∀ op, c.peek.kind = .operator op → Derives (.ofLeft op) ls left)
    (hmunched : Munched ls c) (h : (readMore least left c).Gives e d) :
    ∃ ts, c = d.prepend ts ∧ Derives (.ofLeast least) (ls ++ ts) e ∧ Stops least d ∧
      Munched (ls ++ ts) d := by
  by_cases hstops : Stops least c
  · obtain ⟨rfl, rfl⟩ := (readMore_gives_of_stops hstops).mp h
    exact ⟨[], rfl, by rwa [List.append_nil], hstops, by rwa [List.append_nil]⟩
  · obtain ⟨op, hop, hle⟩ : ∃ op, c.peek.kind = .operator op ∧ least ≤ op.precedence := by
      simpa [Stops] using hstops
    obtain ⟨right, c', hr, hm⟩ := (readMore_gives_of_operator hop hle).mp h
    obtain ⟨rs, hrs, hright, hstops', hmunched'⟩ := readAt_sound hr
    have hc := eq_prepend_of_kind hop Kind.noConfusion
    have hboth : Derives op.level (ls ++ c.peek :: rs) (.binary op left right) := by
      by_cases hpower : op = .power
      · subst hpower
        exact .power hop (hnext _ hop) hright
      · rw [Level.ofLeast_rightPrecedence hpower] at hright
        have hleft := hnext op hop
        rw [Level.ofLeft, if_neg hpower] at hleft
        exact .left hpower hop hleft hright
    have hname : c.peek.kind ≠ .name := by
      rw [hop]
      exact Kind.noConfusion
    obtain ⟨ts, rfl, hts, hstops'', hmunched''⟩ :=
      readMore_sound (hboth.loosen (Level.rank_ofLeast_le hle))
      (fun next hn => hboth.loosen (Level.rank_ofLeft_le (hstops' next hn)))
        (hmunched'.append_cons hname) hm
    refine ⟨c.peek :: (rs ++ ts), ?_, ?_, hstops'', ?_⟩
    · rw [hrs, ← Cursor.prepend_append, ← Cursor.prepend_append] at hc
      exact hc
    · rwa [List.append_assoc, List.cons_append] at hts
    · rwa [List.append_assoc, List.cons_append] at hmunched''
termination_by 3 * c.size + 1
decreasing_by
  · have := Cursor.size_advance_lt (c := c) (by rw [hop]; exact Kind.noConfusion)
    omega
  · have := Cursor.size_advance_lt (c := c) (by rw [hop]; exact Kind.noConfusion)
    have := hr.size_le
    omega

/-- What is read as an operand is a phrase without operators, signs apart. -/
theorem readOperand_sound {c d : Cursor} {e : Expr} (h : (readOperand c).Gives e d) :
    ∃ ts, c = d.prepend ts ∧ Derives .signed ts e ∧ Munched ts d := by
  cases hkind : c.peek.kind with
  | endOfInput | illegal | keyword _ | rightParen | comma | semicolon =>
    exact absurd h (not_readOperand_gives (by simp [hkind]))
  | operator op =>
    have hc := eq_prepend_of_kind hkind Kind.noConfusion
    have hname : c.peek.kind ≠ .name := by
      rw [hkind]
      exact Kind.noConfusion
    by_cases hminus : op = .subtract
    · subst hminus
      obtain ⟨a, ha, rfl⟩ := (readOperand_gives_of_minus hkind).mp h
      obtain ⟨ts, hts, hderives, _, hmunched⟩ := readAt_sound ha
      exact ⟨c.peek :: ts, by rw [hc, hts]; rfl, .minus hkind hderives, hmunched.cons hname⟩
    · by_cases hplus : op = .add
      · subst hplus
        obtain ⟨ts, hts, hderives, _, hmunched⟩ :=
          readAt_sound ((readOperand_gives_of_plus hkind).mp h)
        exact ⟨c.peek :: ts, by rw [hc, hts]; rfl, .plus hkind hderives, hmunched.cons hname⟩
      · exact absurd h (not_readOperand_gives (by simp [hkind, hminus, hplus]))
  | number | lineNumber =>
    have hnumber : c.peek.kind = .number ∨ c.peek.kind = .lineNumber := by simp [hkind]
    obtain ⟨x, hx, rfl, rfl⟩ := (readOperand_gives_of_number hnumber).mp h
    refine ⟨[c.peek], eq_prepend_of_kind hkind Kind.noConfusion, .tighter (.number hnumber hx), ?_⟩
    exact Munched.concat (l := []) (by rw [hkind]; exact Kind.noConfusion)
  | string =>
    obtain ⟨rfl, rfl⟩ := (readOperand_gives_of_string hkind).mp h
    refine ⟨[c.peek], eq_prepend_of_kind hkind Kind.noConfusion, .tighter (.text hkind), ?_⟩
    exact Munched.concat (l := []) (by rw [hkind]; exact Kind.noConfusion)
  | leftParen =>
    obtain ⟨a, c', hright, rfl, ha, rfl⟩ := (readOperand_gives_of_paren hkind).mp h
    obtain ⟨ts, hts, hderives, _, _⟩ := readAt_sound ha
    have hc := eq_prepend_of_kind hkind Kind.noConfusion
    have hc' := eq_prepend_of_kind hright Kind.noConfusion
    refine ⟨c.peek :: (ts ++ [c'.peek]), ?_, .tighter (.paren hkind hright hderives), ?_⟩
    · rw [hts, hc', ← Cursor.prepend_append, ← Cursor.prepend_append] at hc
      exact hc
    · exact Munched.concat (l := c.peek :: ts) (by rw [hright]; exact Kind.noConfusion)
  | name =>
    have hc := eq_prepend_of_kind hkind Kind.noConfusion
    by_cases hleft : c.advance.peek.kind = .leftParen
    · have hc' := eq_prepend_of_kind hleft Kind.noConfusion
      by_cases hright : c.advance.advance.peek.kind = .rightParen
      · have hc'' := eq_prepend_of_kind hright Kind.noConfusion
        obtain ⟨rfl, rfl⟩ := (readOperand_gives_of_call hkind hleft hright).mp h
        refine ⟨[c.peek, c.advance.peek, c.advance.advance.peek], ?_,
          .tighter (.call hkind hleft hright), ?_⟩
        · rw [hc'', ← Cursor.prepend_append] at hc'
          rw [hc', ← Cursor.prepend_append] at hc
          exact hc
        · exact Munched.concat (l := [c.peek, c.advance.peek])
            (by rw [hright]; exact Kind.noConfusion)
      · obtain ⟨es, hes, rfl⟩ := (readOperand_gives_of_callWith hkind hleft hright).mp h
        obtain ⟨ts, r, hts, hr, hderives⟩ := readArguments_sound hes
        refine ⟨c.peek :: c.advance.peek :: (ts ++ [r]), ?_,
          .tighter (.callWith hkind hleft hr hderives), ?_⟩
        · rw [hts, ← Cursor.prepend_append] at hc'
          rw [hc', ← Cursor.prepend_append] at hc
          exact hc
        · exact Munched.concat (l := c.peek :: c.advance.peek :: ts)
            (by rw [hr]; exact Kind.noConfusion)
    · obtain ⟨rfl, rfl⟩ := (readOperand_gives_of_name hkind hleft).mp h
      exact ⟨[c.peek], hc, .tighter (derives_ofName hkind), .singleton hleft⟩
termination_by 3 * c.size + 1
decreasing_by
  all_goals
    have := Cursor.size_advance_lt (c := c) (by rw [hkind]; exact Kind.noConfusion)
    have := c.advance.size_advance_le
    omega

/-- What is read as arguments are arguments, and a closing parenthesis. -/
theorem readArguments_sound {c d : Cursor} {es : List Expr} (h : (readArguments c).Gives es d) :
    ∃ ts r, c = d.prepend (ts ++ [r]) ∧ r.kind = .rightParen ∧ DerivesArguments ts es := by
  obtain ⟨e, c', he, hrest⟩ := readArguments_gives.mp h
  obtain ⟨ts, hts, hderives, _, _⟩ := readAt_sound he
  rcases hrest with ⟨hkind, rfl, rfl⟩ | ⟨hkind, es', hes, rfl⟩
  · have hc' := eq_prepend_of_kind hkind Kind.noConfusion
    rw [hc', ← Cursor.prepend_append] at hts
    exact ⟨ts, c'.peek, hts, hkind, .last hderives⟩
  · obtain ⟨us, r, hus, hr, hderives'⟩ := readArguments_sound hes
    have hc' := eq_prepend_of_kind hkind Kind.noConfusion
    rw [hc', hus, ← Cursor.prepend_append, ← Cursor.prepend_append] at hts
    refine ⟨ts ++ c'.peek :: us, r, ?_, hr, .more hkind hderives hderives'⟩
    rw [List.append_assoc] at hts ⊢
    exact hts
termination_by 3 * c.size + 3
decreasing_by
  · omega
  · have := he.size_le
    have := Cursor.size_advance_lt (c := c') (by rw [hkind]; exact Kind.noConfusion)
    omega

end

/-! ## What is derived is read -/

theorem readMore_gives_self {least : Nat} {c : Cursor} (e : Expr) (h : Stops least c) :
    (readMore least e c).Gives e c :=
  (readMore_gives_of_stops h).mpr ⟨rfl, rfl⟩

theorem munched_of_operator {ts us : List Token} {t : Token} {op : Operator} {c : Cursor}
    (ht : t.kind = .operator op) : Munched ts (c.prepend (t :: us)) := by
  intro _ _ _
  rw [Cursor.peek_prepend_cons, ht]
  exact Kind.noConfusion

theorem advance_prepend_of_kind {c : Cursor} {t : Token} {ts : List Token} {kind : Kind}
    (ht : t.kind = kind) (hkind : kind ≠ .endOfInput) :
    (c.prepend (t :: ts)).advance = c.prepend ts :=
  Cursor.advance_prepend_cons ts (ht ▸ hkind)

theorem readOperand_name {t : Token} {rest : Cursor} (ht : t.kind = .name)
    (h : rest.peek.kind ≠ .leftParen) :
    (readOperand (rest.prepend [t])).Gives (ofName (.ofText t.text)) rest := by
  have hadvance : (rest.prepend [t]).advance = rest := advance_prepend_of_kind ht Kind.noConfusion
  apply (readOperand_gives_of_name (c := rest.prepend [t]) ht (by rwa [hadvance])).mpr
  exact ⟨rfl, hadvance⟩

theorem DerivesArguments.exists_cons {ts : List Token} {es : List Expr}
    (h : DerivesArguments ts es) :
    ∃ t us, ts = t :: us ∧ t.kind ≠ .rightParen ∧ t.kind ≠ .endOfInput := by
  cases h with
  | last h => exact h.exists_cons
  | more _ h _ =>
    obtain ⟨t, us, rfl, ht⟩ := h.exists_cons
    exact ⟨t, _, List.cons_append, ht⟩

mutual

/-- The reader takes a phrase of a level and reads on behind it. -/
theorem Derives.complete {level : Level} {ts : List Token} {e f : Expr} {least : Nat}
    {rest d : Cursor} (hleast : least ≤ level.precedence)
    (hstops : Stops level.rightPrecedence rest) (hmunched : Munched ts rest)
    (hmore : (readMore least e rest).Gives f d) :
    Derives level ts e → (readAt least (rest.prepend ts)).Gives f d
  | .tighter h =>
    h.complete (Nat.le_trans hleast level.precedence_le_tighter)
      (hstops.mono level.rightPrecedence_le_tighter) hmunched hmore
  | @Derives.left op t ls rs a b hop ht hl hr => by
    rw [precedence_level] at hleast
    have hright : (readAt op.rightPrecedence (rest.prepend rs)).Gives b rest := by
      refine hr.complete ?_ (hstops.mono op.level.rightPrecedence_le_tighter)
        hmunched.of_append_cons (readMore_gives_self b ?_)
      · rw [← rightPrecedence_level]
        exact op.level.rightPrecedence_le_precedence_tighter
      · rwa [rightPrecedence_level] at hstops
    rw [Cursor.prepend_append]
    refine hl.complete ?_ ?_ (munched_of_operator ht) ?_
    · rwa [precedence_level]
    · intro op' hop'
      rw [Cursor.peek_prepend_cons, ht] at hop'
      obtain rfl := Kind.operator.inj hop'
      rw [rightPrecedence_level]
      exact precedence_lt_rightPrecedence hop
    · apply (readMore_gives_of_operator (c := rest.prepend (t :: rs)) ht hleast).mpr
      rw [advance_prepend_of_kind ht Kind.noConfusion]
      exact ⟨b, rest, hright, hmore⟩
  | @Derives.power t ls rs a b ht hl hr => by
    have hright : (readAt 40 (rest.prepend rs)).Gives b rest :=
      hr.complete (Nat.le_refl _) hstops hmunched.of_append_cons (readMore_gives_self b hstops)
    rw [Cursor.prepend_append]
    refine hl.complete (Nat.le_trans hleast (by decide)) (stops_signed _)
      (munched_of_operator ht) ?_
    apply (readMore_gives_of_operator (c := rest.prepend (t :: rs)) ht hleast).mpr
    rw [advance_prepend_of_kind ht Kind.noConfusion]
    exact ⟨b, rest, hright, hmore⟩
  | @Derives.minus t ts e ht h => by
    have hoperand : (readAt signPrecedence (rest.prepend ts)).Gives e rest :=
      h.complete (Nat.le_refl _) (stops_signed rest) (hmunched.of_append_cons (l := []))
        (readMore_gives_self e (stops_signPrecedence rest))
    refine readAt_gives.mpr ⟨_, rest,
      (readOperand_gives_of_minus (c := rest.prepend (t :: ts)) ht).mpr ?_, hmore⟩
    rw [advance_prepend_of_kind ht Kind.noConfusion]
    exact ⟨e, hoperand, rfl⟩
  | @Derives.plus t ts e ht h => by
    have hoperand : (readAt signPrecedence (rest.prepend ts)).Gives e rest :=
      h.complete (Nat.le_refl _) (stops_signed rest) (hmunched.of_append_cons (l := []))
        (readMore_gives_self e (stops_signPrecedence rest))
    refine readAt_gives.mpr ⟨_, rest,
      (readOperand_gives_of_plus (c := rest.prepend (t :: ts)) ht).mpr ?_, hmore⟩
    rwa [advance_prepend_of_kind ht Kind.noConfusion]
  | @Derives.number t x ht hx => by
    refine readAt_gives.mpr ⟨_, rest,
      (readOperand_gives_of_number (c := rest.prepend [t]) ht).mpr ?_, hmore⟩
    refine ⟨x, hx, rfl, ?_⟩
    rcases ht with ht | ht <;> exact advance_prepend_of_kind ht Kind.noConfusion
  | @Derives.text t ht => by
    refine readAt_gives.mpr ⟨_, rest,
      (readOperand_gives_of_string (c := rest.prepend [t]) ht).mpr ?_, hmore⟩
    exact ⟨rfl, advance_prepend_of_kind ht Kind.noConfusion⟩
  | @Derives.builtin t f ht hf => by
    rw [← ofName_of_builtin hf] at hmore
    exact readAt_gives.mpr ⟨_, rest, readOperand_name ht (hmunched t rfl ht), hmore⟩
  | @Derives.var t ht hf => by
    rw [← ofName_of_not_builtin hf] at hmore
    exact readAt_gives.mpr ⟨_, rest, readOperand_name ht (hmunched t rfl ht), hmore⟩
  | @Derives.call t l r ht hl hr => by
    have hone : (rest.prepend [t, l, r]).advance = rest.prepend [l, r] :=
      advance_prepend_of_kind ht Kind.noConfusion
    have htwo : (rest.prepend [l, r]).advance = rest.prepend [r] :=
      advance_prepend_of_kind hl Kind.noConfusion
    have hthree : (rest.prepend [r]).advance = rest := advance_prepend_of_kind hr Kind.noConfusion
    have hoperand : (readOperand (rest.prepend [t, l, r])).Gives
        (.call ⟨t.text.toUpper⟩ []) rest := by
      apply (readOperand_gives_of_call (c := rest.prepend [t, l, r]) ht (by rwa [hone])
        (by rwa [hone, htwo])).mpr
      rw [hone, htwo]
      exact ⟨rfl, hthree⟩
    exact readAt_gives.mpr ⟨_, rest, hoperand, hmore⟩
  | @Derives.callWith t l r ts es ht hl hr h => by
    have hone : (rest.prepend (t :: l :: (ts ++ [r]))).advance = rest.prepend (l :: (ts ++ [r])) :=
      advance_prepend_of_kind ht Kind.noConfusion
    have htwo : (rest.prepend (l :: (ts ++ [r]))).advance = rest.prepend (ts ++ [r]) :=
      advance_prepend_of_kind hl Kind.noConfusion
    have hfirst : (rest.prepend (ts ++ [r])).peek.kind ≠ .rightParen := by
      obtain ⟨u, us, rfl, hu, _⟩ := h.exists_cons
      exact hu
    have hoperand : (readOperand (rest.prepend (t :: l :: (ts ++ [r])))).Gives
        (.call ⟨t.text.toUpper⟩ es) rest := by
      apply (readOperand_gives_of_callWith (c := rest.prepend (t :: l :: (ts ++ [r]))) ht
        (by rwa [hone]) (by rwa [hone, htwo])).mpr
      rw [hone, htwo]
      exact ⟨es, h.complete hr, rfl⟩
    exact readAt_gives.mpr ⟨_, rest, hoperand, hmore⟩
  | @Derives.paren l r ts a hl hr h => by
    have hclose : (rest.prepend [r]).advance = rest := advance_prepend_of_kind hr Kind.noConfusion
    have hinner : (readAt 0 ((rest.prepend [r]).prepend ts)).Gives a (rest.prepend [r]) :=
      h.complete (Nat.zero_le _) (stops_of_kind hr fun _ => Kind.noConfusion)
        (fun _ _ _ => by rw [Cursor.peek_prepend_cons, hr]; exact Kind.noConfusion)
        (readMore_gives_self a (stops_of_kind hr fun _ => Kind.noConfusion))
    have hoperand : (readOperand (rest.prepend (l :: (ts ++ [r])))).Gives (.paren a) rest := by
      apply (readOperand_gives_of_paren (c := rest.prepend (l :: (ts ++ [r]))) hl).mpr
      rw [advance_prepend_of_kind hl Kind.noConfusion, Cursor.prepend_append]
      exact ⟨a, rest.prepend [r], hr, hclose, hinner, rfl⟩
    exact readAt_gives.mpr ⟨_, rest, hoperand, hmore⟩

/-- The reader takes arguments and the parenthesis behind them. -/
theorem DerivesArguments.complete {ts : List Token} {es : List Expr} {r : Token} {rest : Cursor}
    (hr : r.kind = .rightParen) :
    DerivesArguments ts es → (readArguments (rest.prepend (ts ++ [r]))).Gives es rest
  | @DerivesArguments.last ts e h => by
    have hclose : (rest.prepend [r]).advance = rest := advance_prepend_of_kind hr Kind.noConfusion
    have hlast : (readAt 0 ((rest.prepend [r]).prepend ts)).Gives e (rest.prepend [r]) :=
      h.complete (Nat.zero_le _) (stops_of_kind hr fun _ => Kind.noConfusion)
        (fun _ _ _ => by rw [Cursor.peek_prepend_cons, hr]; exact Kind.noConfusion)
        (readMore_gives_self e (stops_of_kind hr fun _ => Kind.noConfusion))
    rw [Cursor.prepend_append]
    exact readArguments_gives.mpr ⟨e, rest.prepend [r], hlast, .inl ⟨hr, rfl, hclose⟩⟩
  | @DerivesArguments.more t ts us e es ht h hs => by
    have hcomma : (rest.prepend (t :: (us ++ [r]))).advance = rest.prepend (us ++ [r]) :=
      advance_prepend_of_kind ht Kind.noConfusion
    have hfirst : (readAt 0 ((rest.prepend (t :: (us ++ [r]))).prepend ts)).Gives e
        (rest.prepend (t :: (us ++ [r]))) :=
      h.complete (Nat.zero_le _) (stops_of_kind ht fun _ => Kind.noConfusion)
        (fun _ _ _ => by rw [Cursor.peek_prepend_cons, ht]; exact Kind.noConfusion)
        (readMore_gives_self e (stops_of_kind ht fun _ => Kind.noConfusion))
    rw [List.append_assoc, List.cons_append, Cursor.prepend_append]
    refine readArguments_gives.mpr ⟨e, _, hfirst, .inr ⟨ht, es, ?_, rfl⟩⟩
    rw [hcomma]
    exact hs.complete hr

end

/-- Reading an expression gives what the longest phrase stands for. -/
theorem read_gives_iff {c d : Cursor} {e : Expr} :
    (read c).Gives e d ↔ ∃ ts, c = d.prepend ts ∧ Derives .comparison ts e ∧ Stops 0 d ∧
      Munched ts d := by
  constructor
  · exact readAt_sound
  · rintro ⟨ts, rfl, hts, hstops, hmunched⟩
    exact hts.complete (Nat.zero_le _) (hstops.mono (Nat.zero_le _)) hmunched
      (readMore_gives_self e hstops)

/-- Reading from the position `first` of a list of tokens gives an expression and stops at the
position `last` if and only if the tokens between derive the expression, no operator follows, and no
parenthesis follows a name at the end. -/
theorem read_gives_iff_derives (tokens : List Token) (first last : Nat) (e : Expr) :
    last ≤ tokens.length ∧ (read (.atPosition tokens first)).Gives e (.atPosition tokens last) ↔
      first ≤ last ∧ last ≤ tokens.length ∧
        Derives .comparison ((tokens.drop first).take (last - first)) e ∧
        (∀ op, (Cursor.atPosition tokens last).peek.kind ≠ .operator op) ∧
        ∀ t, ((tokens.drop first).take (last - first)).getLast? = some t → t.kind = .name →
          (Cursor.atPosition tokens last).peek.kind ≠ .leftParen := by
  rw [read_gives_iff]
  constructor
  · rintro ⟨hlast, ts, hc, hts, hstops, hmunched⟩
    have htokens : tokens.drop first = ts ++ tokens.drop last := congrArg Cursor.tokens hc
    obtain ⟨t, us, hcons, _⟩ := hts.exists_cons
    have hlength : tokens.length - first = ts.length + (tokens.length - last) := by
      simpa using congrArg List.length htokens
    have hpos : 0 < ts.length := by simp [hcons]
    have htake : (tokens.drop first).take (last - first) = ts := by
      rw [htokens, show last - first = ts.length by omega, List.take_left]
    rw [htake]
    exact ⟨by omega, hlast, hts, fun op hop => absurd (hstops op hop) (Nat.not_lt_zero _), hmunched⟩
  · rintro ⟨hle, hlast, hts, hstops, hmunched⟩
    refine ⟨hlast, _, ?_, hts, fun op hop => absurd hop (hstops op), hmunched⟩
    have hdrop : tokens.drop first =
        (tokens.drop first).take (last - first) ++ tokens.drop last := by
      have hsplit := List.take_append_drop (last - first) (tokens.drop first)
      rw [List.drop_drop, show first + (last - first) = last by omega] at hsplit
      exact hsplit.symm
    unfold Cursor.atPosition Cursor.prepend
    dsimp only
    rw [← hdrop]

end Expr

end LineBasic
