import LineBasic.Proofs.Statement.Readable

/-!
# Rendered statements are read back

A statement that was read and is shown in full is rendered in pieces, one for each word of it
(`Statement.exists_isWritten`). From the tokens of these pieces it is read again, and where it stood
on one line they do, so that nothing of it is lost behind a newline.
-/

namespace LineBasic

namespace Statement

/-- The expressions of a statement, with those of a statement behind `THEN`. -/
def exprs : Statement → List Expr
  | .loop _ start limit step _ => [start, limit, step]
  | .cond condition body => condition :: body.exprs
  | .assign _ e => [e]
  | .print items => items
  | .stop | .goto _ | .input _ _ | .next _ | .remark _ => []

/-- Pieces that write a statement as it is rendered, and from which it is read up to the end of the
source. `onLine` says that they begin on the physical line of the statement. -/
structure IsWritten (st : Statement) (number : Nat) (onLine : Prop) (ps : List Piece) : Prop where
  spell_eq : Piece.spell ps = st.render.toList
  legible : Piece.Legible false ps
  read_gives : ∀ {p : Position} {line : Nat} {d : Cursor}, d.peek.kind = .endOfInput →
    (onLine → p.line = line) →
    (Statement.read line number (d.prepend (Piece.tokens p ps))).Gives st d

variable {number : Nat} {onLine : Prop}

theorem closed_of_end {d : Cursor} (h : d.peek.kind = .endOfInput) : Expr.Closed d := by
  simp [Expr.Closed, h]

theorem form_keyword (k : Keyword) : (Kind.keyword k).Form k.text := rfl

theorem isWritten_stop : IsWritten .stop number onLine [.word (.keyword .END) "END"] where
  spell_eq := rfl
  legible := .word rfl (fun _ => delimited_nil) .nil
  read_gives _ _ := read_gives_of_readBehind rfl (Reading.ok_gives.mpr ⟨rfl, rfl⟩)

theorem isWritten_assign {v : Ident} {e : Expr} {ps : List Piece} (hv : v.IsSpelled)
    (he : e.IsWritten ps) :
    IsWritten (.assign v e) number onLine
      (.word .name v.name :: .blank :: .word (.operator .equal) "=" :: .blank :: ps) where
  spell_eq := by simp [render, he.spell_eq, Piece.source, Kind.lexeme]
  legible := by
    have hequal : (Kind.operator .equal).Form "=" := rfl
    exact .word_blank hv.form Kind.noConfusion
      (.word_blank hequal Kind.noConfusion he.isPhrase.legible)
  read_gives {p line d} hd _ := by
    refine (read_gives_of_name rfl).mpr (readAssign_gives.mpr ?_)
    refine ⟨_, _, d.prepend (Piece.tokens _ ps), e, rfl, rfl, rfl,
      (he.derives _).read_gives (closed_of_end hd), ?_⟩
    exact congrArg (Statement.assign · e) hv.upper

theorem form_repr (n : Nat) : Kind.number.Form n.repr := by
  refine ⟨Nat.toDigits 10 n, [], Nat.toList_repr, ?_, ?_, by simp⟩
  · exact Nat.toDigits_ne_nil
  · exact fun c hc => Nat.isDigit_of_mem_toDigits (by decide) (by decide) hc

theorem isTarget_repr {n : Nat} (h : isLineNumber n = true) {kind : Kind}
    (hkind : kind = .number ∨ kind = .lineNumber) (p : Position) :
    (⟨kind, n.repr, p⟩ : Token).IsTarget n := by
  have hdigits : ∀ c ∈ n.repr.toList, c.isDigit = true := by
    rw [Nat.toList_repr]
    exact fun c hc => Nat.isDigit_of_mem_toDigits (by decide) (by decide) hc
  have hplus : '+' ∉ n.repr.toList := fun hmem => Bool.noConfusion (hdigits _ hmem)
  refine ⟨hkind, (lineNumberOf?_eq_some_iff hplus).mpr ⟨?_, hdigits, ?_, h⟩⟩
  · rw [ne_eq, ← String.toList_eq_nil_iff, Nat.toList_repr]
    exact Nat.toDigits_ne_nil
  · rw [Nat.toList_repr, Nat.ofDigitChars_ten_toDigits]

theorem isWritten_goto {n : Nat} (h : isLineNumber n = true) :
    IsWritten (.goto n) number onLine
      [.word (.keyword .GOTO) "GOTO", .blank, .word .number n.repr] where
  spell_eq := by simp [render, Piece.source, Kind.lexeme]
  legible := .word_blank rfl (by decide) (.word (form_repr n) (fun _ => delimited_nil) .nil)
  read_gives {p line d} _ _ :=
    read_gives_of_readBehind rfl (readGoto_gives.mpr ⟨_, n, isTarget_repr h (.inl rfl) _, rfl, rfl⟩)

theorem isWritten_input {v : Ident} (hv : v.IsSpelled) :
    IsWritten (.input "" v) number onLine
      [.word (.keyword .INPUT) "INPUT", .blank, .word .name v.name] where
  spell_eq := by simp [render, Piece.source, Kind.lexeme]
  legible := .word_blank rfl (by decide) (.word hv.form (fun _ => delimited_nil) .nil)
  read_gives {p line d} _ _ :=
    read_gives_of_readBehind rfl
      (readInput_gives.mpr (.inl ⟨_, rfl, rfl, congrArg (Statement.input "") hv.upper⟩))

theorem isWritten_inputPrompt {prompt : String} {v : Ident} (hprompt : Kind.string.Form prompt)
    (hne : prompt ≠ "") (hv : v.IsSpelled) :
    IsWritten (.input prompt v) number onLine
      [.word (.keyword .INPUT) "INPUT", .blank, .word .string prompt,
      .word .semicolon ";", .blank, .word .name v.name] where
  spell_eq := by simp [render, hne, Piece.source, Kind.lexeme]
  legible := by
    have hsemicolon : Kind.semicolon.Form ";" := rfl
    have hname : Piece.Legible false [.word .name v.name] :=
      .word hv.form (fun _ => delimited_nil) .nil
    have hstring : Piece.Legible false
        [.word .string prompt, .word .semicolon ";", .blank, .word .name v.name] := by
      refine .word hprompt (fun _ c hc => ?_) (hname.word_blank hsemicolon Kind.noConfusion)
      obtain rfl : ';' = c := Option.some.inj hc
      rfl
    exact .word_blank (form_keyword .INPUT) (by decide) hstring
  read_gives {p line d} _ _ := by
    refine read_gives_of_readBehind rfl
      (readInput_gives.mpr (.inr ⟨_, _, _, rfl, .inr rfl, rfl, rfl, ?_⟩))
    exact congrArg (Statement.input prompt) hv.upper

theorem isWritten_next : IsWritten (.next none) number onLine [.word (.keyword .NEXT) "NEXT"] where
  spell_eq := rfl
  legible := .word rfl (fun _ => delimited_nil) .nil
  read_gives {p line d} hd _ := by
    have hname : ¬ (d.peek.kind = .name ∧ !d.atEndOfStatement line) := by simp [hd]
    exact read_gives_of_readBehind rfl (readNext_gives.mpr (.inl ⟨hname, rfl, rfl⟩))

theorem atEndOfStatement_of_line {t : Token} {line : Nat} (hnumber : t.kind ≠ .lineNumber)
    (hend : t.kind ≠ .endOfInput) (ht : t.line = line) (ts : List Token) (d : Cursor) :
    (d.prepend (t :: ts)).atEndOfStatement line = false := by
  have hline : Token.OnLine line [t] := by
    intro u hu
    obtain rfl := List.mem_singleton.mp hu
    exact ⟨hnumber, hend, ht⟩
  show ((d.prepend ts).prepend [t]).atEndOfStatement line = false
  exact Cursor.atEndOfStatement_prepend_cons hline

theorem line_after_of_not_mem {cs : List Char} (h : '\n' ∉ cs) (p : Position) :
    (p.after cs).line = p.line := by
  rw [Position.line_after, List.count_eq_zero.mpr h, Nat.add_zero]

theorem isWritten_nextOf {v : Ident} (hline : onLine) (hv : v.IsSpelled) :
    IsWritten (.next (some v)) number onLine
      [.word (.keyword .NEXT) "NEXT", .blank, .word .name v.name] where
  spell_eq := by simp [render, Piece.source, Kind.lexeme]
  legible := .word_blank rfl (by decide) (.word hv.form (fun _ => delimited_nil) .nil)
  read_gives {p line d} _ hp := by
    refine read_gives_of_readBehind rfl (readNext_gives.mpr (.inr ⟨?_, _, rfl, rfl, ?_⟩))
    · refine atEndOfStatement_of_line Kind.noConfusion Kind.noConfusion ?_ _ _
      exact (line_after_of_not_mem (by decide) p).trans (hp hline)
    · exact congrArg (fun v => Statement.next (some v)) hv.upper

theorem isWritten_rem : IsWritten (.remark "") number onLine [.word (.keyword .REM) "REM"] where
  spell_eq := rfl
  legible := .word rfl (fun _ => delimited_nil) .nil
  read_gives {p line d} hd _ := by
    have hstring : ¬ (d.peek.kind = .string ∧ !d.atEndOfStatement line) := by simp [hd]
    exact read_gives_of_readBehind rfl (readRemark_gives.mpr (.inl ⟨hstring, rfl, rfl⟩))

theorem isWritten_remark {text : String} (hline : onLine) (h : IsRemark text.toList) :
    IsWritten (.remark text) number onLine [.word (.keyword .REM) "REM", .blank, .remark text] where
  spell_eq := by
    have hne : text ≠ "" := by
      rintro rfl
      exact h.ne_nil rfl
    simp [render, hne, Piece.source, Kind.lexeme]
  legible := .word rfl (fun _ => Piece.delimited_blank _) (.blank (.remark h))
  read_gives {p line d} _ hp := by
    refine read_gives_of_readBehind rfl
      (readRemark_gives.mpr (.inr ⟨?_, ⟨.string, text, _⟩, rfl, rfl, rfl⟩))
    refine atEndOfStatement_of_line Kind.noConfusion Kind.noConfusion ?_ _ _
    exact (line_after_of_not_mem (by decide) p).trans (hp hline)

/-- An expression before a keyword is read up to the keyword. -/
theorem read_spaced {e : Expr} {xs : List Piece} (he : e.IsWritten xs) (k : Keyword)
    (ys : List Piece) (p : Position) (d : Cursor) : ∃ m : Token, m.kind = .keyword k ∧
      (Expr.read (d.prepend (Piece.tokens p (xs ++ (Piece.spaced k ++ ys))))).Gives e
        ((d.prepend
          (Piece.tokens (p.after (Piece.spell xs ++ Piece.spell (Piece.spaced k))) ys)).prepend
          [m]) := by
  obtain ⟨q, htokens⟩ := Piece.tokens_spaced p k xs ys
  rw [htokens, Cursor.prepend_append]
  exact ⟨⟨.keyword k, k.text, q⟩, rfl, (he.derives p).read_gives (Expr.closed_of_kind rfl)⟩

theorem readLoop_written {v : Ident} {start limit step : Expr} {xs ys zs : List Piece}
    (hv : v.IsSpelled) (hstart : start.IsWritten xs) (hlimit : limit.IsWritten ys)
    (hstep : step.IsWritten zs) {d : Cursor} (hd : d.peek.kind = .endOfInput) (p q r : Position) :
    (readLoop number (d.prepend (⟨.name, v.name, p⟩ :: ⟨.operator .equal, "=", q⟩ ::
      Piece.tokens r (xs ++ (Piece.spaced .TO ++ (ys ++ (Piece.spaced .STEP ++ zs))))))).Gives
      (.loop v start limit step number) d := by
  obtain ⟨m, hm, hreadStart⟩ := read_spaced hstart .TO (ys ++ (Piece.spaced .STEP ++ zs)) r d
  obtain ⟨l, hl, hreadLimit⟩ := read_spaced hlimit .STEP zs
    (r.after (Piece.spell xs ++ Piece.spell (Piece.spaced .TO))) d
  refine readLoop_gives.mpr ⟨_, _, _, start, m, _, limit, _, step, rfl, rfl, rfl, hreadStart, hm,
    hreadLimit, ?_, ?_⟩
  · exact readStep_gives.mpr (.inr ⟨l, _, hl, rfl, (hstep.derives _).read_gives (closed_of_end hd)⟩)
  · exact congrArg (Statement.loop · start limit step number) hv.upper

theorem isWritten_loop {v : Ident} {start limit step : Expr} {xs ys zs : List Piece}
    (hv : v.IsSpelled) (hstart : start.IsWritten xs) (hlimit : limit.IsWritten ys)
    (hstep : step.IsWritten zs) :
    IsWritten (.loop v start limit step number) number onLine
      (.word (.keyword .FOR) "FOR" :: .blank :: .word .name v.name :: .blank ::
        .word (.operator .equal) "=" :: .blank ::
        (xs ++ (Piece.spaced .TO ++ (ys ++ (Piece.spaced .STEP ++ zs))))) where
  spell_eq := by
    simp [render, hstart.spell_eq, hlimit.spell_eq, hstep.spell_eq, Piece.source, Kind.lexeme,
      Piece.spaced, Keyword.text]
  legible := by
    have hequal : (Kind.operator .equal).Form "=" := rfl
    have hlimits :=
      hlimit.isPhrase.legible_spaced (show Keyword.STEP ≠ .REM by decide) hstep.isPhrase.legible
    have hstarts := hstart.isPhrase.legible_spaced (show Keyword.TO ≠ .REM by decide) hlimits
    exact .word_blank (form_keyword .FOR) (by decide)
      (.word_blank hv.form Kind.noConfusion (.word_blank hequal Kind.noConfusion hstarts))
  read_gives hd _ := read_gives_of_readBehind rfl (readLoop_written hv hstart hlimit hstep hd _ _ _)

/-! ## Conditions -/

theorem kind_ne_number_of_read {line : Nat} {c d : Cursor} {st : Statement}
    (h : (read line number c).Gives st d) : c.peek.kind ≠ .number := by
  intro hkind
  refine not_read_gives ?_ ?_ h
  · rw [hkind]
    exact Kind.noConfusion
  · intro k
    rw [hkind]
    exact Kind.noConfusion

theorem isWritten_cond {condition : Expr} {body : Statement} {xs ys : List Piece}
    (hcondition : condition.IsWritten xs)
    (hbody : body.IsWritten number (onLine ∧ condition.OneLine) ys) :
    IsWritten (.cond condition body) number onLine
      (.word (.keyword .IF) "IF" :: .blank :: (xs ++ (Piece.spaced .THEN ++ ys))) where
  spell_eq := by
    simp [render, hcondition.spell_eq, hbody.spell_eq, Piece.source, Kind.lexeme, Piece.spaced,
      Keyword.text]
  legible := by
    have hthen :=
      hcondition.isPhrase.legible_spaced (show Keyword.THEN ≠ .REM by decide) hbody.legible
    exact .word_blank (form_keyword .IF) (by decide) hthen
  read_gives {p line d} hd hp := by
    obtain ⟨m, hm, hreadCondition⟩ :=
      read_spaced hcondition .THEN ys ((p.after "IF".toList).after [' ']) d
    have hline : onLine ∧ condition.OneLine → (((p.after "IF".toList).after [' ']).after
        (Piece.spell xs ++ Piece.spell (Piece.spaced .THEN))).line = line := by
      rintro ⟨honLine, hone⟩
      have hnewline :=
        List.not_mem_append (hcondition.newline hone) (Piece.newline_not_mem_spaced .THEN)
      rw [line_after_of_not_mem hnewline, line_after_of_not_mem (by decide),
        line_after_of_not_mem (by decide)]
      exact hp honLine
    have hread := hbody.read_gives hd hline
    refine read_gives_of_readBehind rfl (readBehind_cond_gives.mpr ?_)
    exact ⟨condition, m, _, body, hreadCondition, hm, rfl,
      .inr ⟨kind_ne_number_of_read hread, hread⟩⟩

/-! ## Items -/

theorem exists_tokens_cons {e : Expr} {xs : List Piece} (he : e.IsWritten xs)
    (xss : List (List Piece)) (p : Position) :
    ∃ t ts, Piece.tokens p (Piece.separator.intercalate (xs :: xss)) = t :: ts ∧
      t.kind ≠ .lineNumber ∧
      t.kind ≠ .endOfInput ∧ t.line = p.line := by
  obtain ⟨kind, text, qs, hform, rfl⟩ := he.exists_cons
  obtain ⟨ps, hps⟩ : ∃ ps, Piece.separator.intercalate ((.word kind text :: qs) :: xss) =
      .word kind text :: ps := by
    cases xss with
    | nil => exact ⟨qs, List.intercalate_singleton⟩
    | cons ys yss => exact ⟨_, List.intercalate_cons_cons_left⟩
  refine ⟨⟨kind, text, p⟩, _, by rw [hps]; rfl, ?_, ?_, rfl⟩
  · rintro rfl
    exact hform
  · rintro rfl
    exact hform

/-- Items with commas between them are read, if no newline comes before the last. -/
theorem readItems_written {es : List Expr} {xss : List (List Piece)}
    (h : List.Forall₂ Expr.IsWritten es xss) (hne : es ≠ [])
    (hlines : ∀ e ∈ es.dropLast, e.OneLine) {p : Position} {line : Nat} (hp : p.line = line)
    {d : Cursor} (hd : d.peek.kind = .endOfInput) :
    (readItems line (d.prepend (Piece.tokens p (Piece.separator.intercalate xss)))).Gives es d := by
  induction h generalizing p with
  | nil => exact absurd rfl hne
  | @cons e xs es xss he hes ih =>
    cases hes with
    | nil =>
      rw [List.intercalate_singleton]
      have hsep : ¬ d.peek.IsSeparator := by simp [Token.IsSeparator, hd]
      exact readItems_gives.mpr ⟨e, d, (he.derives p).read_gives (closed_of_end hd),
        .inl ⟨hsep, rfl, rfl⟩⟩
    | @cons e' ys es yss he' hes =>
      have hone : e.OneLine := hlines e List.mem_cons_self
      have hnewline :=
        List.not_mem_append (he.newline hone) (show '\n' ∉ Piece.spell Piece.separator by decide)
      have hline := (line_after_of_not_mem hnewline p).trans hp
      have hrest :=
        ih (List.cons_ne_nil e' es) (fun a ha => hlines a (List.mem_cons_of_mem _ ha)) hline
      obtain ⟨t, ts, htokens, hnumber, hend, ht⟩ :=
        exists_tokens_cons he' yss (p.after (Piece.spell xs ++ Piece.spell Piece.separator))
      obtain ⟨q, hcomma⟩ := Piece.tokens_separator p xs (Piece.separator.intercalate (ys :: yss))
      have hadvance : ∀ us, (d.prepend (⟨.comma, ",", q⟩ :: us)).advance = d.prepend us :=
        fun us => Cursor.advance_prepend_cons us Kind.noConfusion
      have hread := (he.derives p).read_gives (d := d.prepend (⟨.comma, ",", q⟩ :: t :: ts))
        (Expr.closed_of_isSeparator (.inl rfl))
      rw [List.intercalate_cons_cons, List.append_assoc, hcomma, htokens, Cursor.prepend_append]
      refine readItems_gives.mpr ⟨e, _, hread, .inr (.inr ⟨.inl rfl, ?_, e' :: es, ?_, rfl⟩)⟩
      · rw [hadvance]
        exact atEndOfStatement_of_line hnumber hend (ht.trans hline) ts d
      · rw [hadvance, ← htokens]
        exact hrest

theorem exists_forall₂ {es : List Expr} (h : ∀ e ∈ es, ∃ xs, e.IsWritten xs) :
    ∃ xss, List.Forall₂ Expr.IsWritten es xss := by
  induction es with
  | nil => exact ⟨[], .nil⟩
  | cons e es ih =>
    obtain ⟨xs, hxs⟩ := h e List.mem_cons_self
    obtain ⟨xss, hxss⟩ := ih fun a ha => h a (List.mem_cons_of_mem _ ha)
    exact ⟨xs :: xss, .cons hxs hxss⟩

theorem map_spell_eq {es : List Expr} {xss : List (List Piece)}
    (h : List.Forall₂ Expr.IsWritten es xss) :
    xss.map Piece.spell = es.map fun e => e.render.toList := by
  induction h with
  | nil => rfl
  | cons he _ ih => rw [List.map_cons, List.map_cons, he.spell_eq, ih]

theorem isPhrase_of_forall₂ {es : List Expr} {xss : List (List Piece)}
    (h : List.Forall₂ Expr.IsWritten es xss) : ∀ xs ∈ xss, Piece.IsPhrase xs := by
  induction h with
  | nil => simp
  | cons he _ ih => exact List.forall_mem_cons.mpr ⟨he.isPhrase, ih⟩

theorem isWritten_print :
    IsWritten (.print []) number onLine [.word (.keyword .PRINT) "PRINT"] where
  spell_eq := rfl
  legible := .word rfl (fun _ => delimited_nil) .nil
  read_gives {p line d} hd _ := by
    have hend : d.atEndOfStatement line = true := Cursor.Ends.atEndOfStatement (.inl hd)
    refine read_gives_of_readBehind rfl ?_
    show (readPrint line d).Gives (.print []) d
    rw [readPrint, if_pos hend]
    exact Reading.ok_gives.mpr ⟨rfl, rfl⟩

theorem isWritten_printItems {items : List Expr} {xss : List (List Piece)}
    (h : List.Forall₂ Expr.IsWritten items xss) (hne : items ≠ []) (hline : onLine)
    (hlines : ∀ e ∈ items.dropLast, e.OneLine) :
    IsWritten (.print items) number onLine
      (.word (.keyword .PRINT) "PRINT" :: .blank :: Piece.separator.intercalate xss) where
  spell_eq := by
    have hrender : (Statement.print items).render =
        "PRINT " ++ ", ".intercalate (items.map Expr.render) := by
      cases items with
      | nil => exact absurd rfl hne
      | cons e es => rfl
    rw [hrender]
    simp [Piece.spell_intercalate, map_spell_eq h, Piece.source, Kind.lexeme, Function.comp_def]
  legible := by
    have hphrase : Piece.IsPhrase (Piece.separator.intercalate xss) := by
      apply Piece.isPhrase_intercalate
      exact isPhrase_of_forall₂ h
    exact .word_blank (form_keyword .PRINT) (by decide) hphrase.legible
  read_gives {p line d} hd hp := by
    have hstart : ((p.after "PRINT".toList).after [' ']).line = line := by
      rw [line_after_of_not_mem (by decide), line_after_of_not_mem (by decide)]
      exact hp hline
    have hitems := readItems_written h hne hlines hstart hd
    have hend : (d.prepend (Piece.tokens ((p.after "PRINT".toList).after [' '])
        (Piece.separator.intercalate xss))).atEndOfStatement line = false := by
      cases h with
      | nil => exact absurd rfl hne
      | cons he _ =>
        obtain ⟨t, ts, htokens, hnumber, hkind, ht⟩ :=
          exists_tokens_cons he _ ((p.after "PRINT".toList).after [' '])
        rw [htokens]
        exact atEndOfStatement_of_line hnumber hkind (ht.trans hstart) ts d
    refine read_gives_of_readBehind rfl ?_
    show (readPrint line (d.prepend (Piece.tokens ((p.after "PRINT".toList).after [' '])
      (Piece.separator.intercalate xss)))).Gives (.print items) d
    rw [readPrint, hend, if_neg Bool.false_ne_true]
    exact Reading.map_gives.mpr ⟨items, hitems, rfl⟩

/-! ## All statements -/

/-- A statement that was read and is shown in full is written in pieces that it is read from. -/
theorem exists_isWritten {onLine : Prop} {st : Statement} (h : st.IsReadable number onLine)
    (hshows : ∀ e ∈ st.exprs, e.Shows) : ∃ ps, st.IsWritten number onLine ps := by
  induction st generalizing onLine with
  | stop => exact ⟨_, isWritten_stop⟩
  | loop v start limit step line =>
    obtain ⟨hv, hstart, hlimit, hstep, rfl⟩ := h
    simp only [exprs, List.forall_mem_cons] at hshows
    obtain ⟨xs, hxs⟩ := hshows.1.exists_isWritten hstart
    obtain ⟨ys, hys⟩ := hshows.2.1.exists_isWritten hlimit
    obtain ⟨zs, hzs⟩ := hshows.2.2.1.exists_isWritten hstep
    exact ⟨_, isWritten_loop hv hxs hys hzs⟩
  | goto n => exact ⟨_, isWritten_goto h⟩
  | cond condition body ih =>
    obtain ⟨hcondition, hbody⟩ := List.forall_mem_cons.mp hshows
    obtain ⟨xs, hxs⟩ := hcondition.exists_isWritten h.1
    obtain ⟨ys, hys⟩ := ih h.2 hbody
    exact ⟨_, isWritten_cond hxs hys⟩
  | input prompt v =>
    by_cases hprompt : prompt = ""
    · subst hprompt
      exact ⟨_, isWritten_input h.2⟩
    · exact ⟨_, isWritten_inputPrompt h.1 hprompt h.2⟩
  | assign v e =>
    obtain ⟨xs, hxs⟩ := (hshows e List.mem_cons_self).exists_isWritten h.2
    exact ⟨_, isWritten_assign h.1 hxs⟩
  | next v =>
    cases v with
    | none => exact ⟨_, isWritten_next⟩
    | some v => exact ⟨_, isWritten_nextOf h.1 h.2⟩
  | print items =>
    obtain ⟨xss, hxss⟩ := exists_forall₂ fun e he => (hshows e he).exists_isWritten (h.1 e he)
    by_cases hne : items = []
    · subst hne
      exact ⟨_, isWritten_print⟩
    · obtain ⟨hline, hlines⟩ := h.2.resolve_left hne
      exact ⟨_, isWritten_printItems hxss hne hline hlines⟩
  | remark text =>
    rcases h with rfl | ⟨hline, hremark⟩
    · exact ⟨_, isWritten_rem⟩
    · exact ⟨_, isWritten_remark hline hremark⟩

end Statement

end LineBasic
