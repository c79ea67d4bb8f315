import LineBasic.Proofs.Program.Lines
import LineBasic.Proofs.Token.LineNumber

/-!
# Line numbers inside statements

The tokens of a source that makes a program are lines of the program, one behind the other
(`Program.DerivesLines`). A number that the scanner takes for a line number has a keyword behind it.
If that keyword can open a statement, the number heads the statement, which the program has under
it. But the scanner also takes numbers before `THEN`, `TO` and `STEP` for line numbers, and those
the statement above goes on with: they are the last token of an expression in it
(`Program.heads_or_swallows`). So a statement does not always stop at the next line number.
-/

namespace LineBasic

/-- The keywords that stand inside of statements. -/
def Keyword.IsInner (w : Keyword) : Prop :=
  w = .THEN ∨ w = .TO ∨ w = .STEP

/-! ## A line number and a keyword in a phrase -/

section cut

variable {u m t k : Token} {ts us front back : List Token} {w : Keyword}

/-- A number is not the token in front of a phrase, if that is of another kind. -/
theorem exists_front_of_cons {kind : Kind} (hu : u.kind = kind) (hne : kind ≠ .lineNumber)
    (ht : t.kind = .lineNumber) (h : u :: us = front ++ t :: back) :
    ∃ front', front = u :: front' ∧ us = front' ++ t :: back := by
  rcases List.cons_eq_append_iff.mp h with ⟨rfl, hcons⟩ | ⟨front', rfl, hus⟩
  · obtain ⟨rfl, -⟩ := List.cons.inj hcons
    exact absurd (hu.symm.trans ht) hne
  · exact ⟨front', rfl, hus⟩

/-- Before the start value of a loop there is no number. -/
theorem exists_front_of_loop {v q : Token} (hu : u.kind = .keyword w) (hv : v.kind = .name)
    (hq : q.kind = .operator .equal) (ht : t.kind = .lineNumber)
    (h : u :: v :: q :: us = front ++ t :: back) :
    ∃ front', front = [u, v, q] ++ front' ∧ us = front' ++ t :: back := by
  obtain ⟨_, rfl, hu⟩ := exists_front_of_cons hu Kind.noConfusion ht h
  obtain ⟨_, rfl, hv⟩ := exists_front_of_cons hv Kind.noConfusion ht hu
  obtain ⟨front', rfl, hq⟩ := exists_front_of_cons hq Kind.noConfusion ht hv
  exact ⟨front', rfl, hq⟩

/-- Of a line number and a keyword behind an expression and a keyword, either the number ends the
expression and the keyword is that keyword, or both stand behind it. -/
theorem cut_behind_expr {e : Expr} {v : Keyword} (hts : Expr.Derives .comparison ts e)
    (hm : m.kind = .keyword v) (ht : t.kind = .lineNumber) (hk : k.kind = .keyword w)
    (h : ts ++ m :: us = front ++ t :: k :: back) :
    (ts = front ++ [t] ∧ v = w) ∨ ∃ front', front = ts ++ m :: front' ∧
      us = front' ++ t :: k :: back := by
  rcases List.append_eq_append_iff.mp h with ⟨gap, rfl, hgap⟩ | ⟨gap, rfl, hgap⟩
  · obtain ⟨front', rfl, hus⟩ := exists_front_of_cons hm Kind.noConfusion ht hgap
    exact .inr ⟨front', rfl, hus⟩
  · match gap, hgap with
    | [], hgap =>
      obtain ⟨rfl, -⟩ := List.cons.inj hgap
      cases hm.symm.trans ht
    | [_], hgap =>
      obtain ⟨rfl, rfl, -⟩ : t = _ ∧ k = m ∧ back = us := by simpa using hgap
      exact .inl ⟨rfl, Kind.keyword.inj (hm.symm.trans hk)⟩
    | _ :: _ :: _, hgap =>
      obtain ⟨rfl, rfl, -⟩ : t = _ ∧ k = _ ∧ _ := by simpa using hgap
      exact absurd hk ((hts.inExpr k (by simp)).2 w)

/-- Tokens whose only keyword stands in front have no keyword behind a token. -/
theorem not_cut_of_tail (h : ts = front ++ t :: k :: back) (hk : k.kind = .keyword w)
    (htail : ∀ u ∈ ts.tail, ∀ w, u.kind ≠ .keyword w) : False := by
  have hmem : k ∈ ts.tail := by
    rw [h]
    cases front <;> simp
  exact htail k hmem w hk

end cut

namespace Statement

variable {number : Nat} {st : Statement} {t k : Token} {zs front back : List Token} {w : Keyword}

theorem DerivesItems.kind_ne {ts : List Token} {es : List Expr} (h : DerivesItems ts es) :
    ∀ t ∈ ts, ∀ w, t.kind ≠ .keyword w := by
  induction h with
  | last h => exact fun t ht => (h.inExpr t ht).2
  | closed h ht =>
    refine List.forall_mem_append.mpr ⟨fun t ht =>
      (h.inExpr t ht).2, List.forall_mem_singleton.mpr ?_⟩
    rcases ht with ht | ht <;> simp [ht]
  | more h ht _ ih =>
    refine List.forall_mem_append.mpr ⟨fun t ht =>
      (h.inExpr t ht).2, List.forall_mem_cons.mpr ⟨?_, ih⟩⟩
    rcases ht with ht | ht <;> simp [ht]

/-- No statement begins with `THEN`, `TO` or `STEP`. -/
theorem Derives.not_isInner (h : Derives number (k :: zs) st) (hk : k.kind = .keyword w) :
    ¬ w.IsInner := by
  have hkind : ∀ {v : Keyword}, k.kind = .keyword v → w = v :=
    fun hv => Kind.keyword.inj (hk.symm.trans hv)
  cases h with
  | assign hv _ _ => cases hk.symm.trans hv
  | assignLet hv _ _ _ | print hv | printItems hv _ | input hv _ | inputPrompt hv _ _ _ | goto hv _
  | condGoto hv _ _ _ _
  | cond hv _ _ _ | loop hv _ _ _ _ _ | loopStep hv _ _ _ _ _ _ _ | next hv | nextOf hv _ | rem hv
  | remark hv _
  | stop hv => simp [Keyword.IsInner, hkind hv]

/-- An expression in a phrase ends in this token. -/
def EndsExpr (front : List Token) (t : Token) : Prop :=
  ∃ ts e, ts <:+ front ∧ Expr.Derives .comparison (ts ++ [t]) e

theorem EndsExpr.append (h : EndsExpr front t) (more : List Token) :
    EndsExpr (more ++ front) t := by
  obtain ⟨ts, e, hts, he⟩ := h
  exact ⟨ts, e, hts.trans (List.suffix_append more front), he⟩

theorem EndsExpr.cons (h : EndsExpr front t) (u : Token) : EndsExpr (u :: front) t :=
  h.append [u]

theorem endsExpr_of_derives {ts : List Token} {e : Expr} (h : Expr.Derives .comparison ts e)
    (hts : ts = front ++ [t]) : EndsExpr front t :=
  ⟨front, e, List.suffix_rfl, hts ▸ h⟩

/-- A line number before a keyword in a statement ends an expression, and the keyword is one that
stands inside of statements. -/
theorem Derives.endsExpr (h : Derives number zs st) (hzs : zs = front ++ t :: k :: back)
    (ht : t.kind = .lineNumber) (hk : k.kind = .keyword w) : EndsExpr front t ∧ w.IsInner := by
  induction h generalizing front with
  | assign _ hq h =>
    exact (not_cut_of_tail hzs hk
      (List.forall_mem_cons.mpr ⟨by simp [hq], fun u hu => (h.inExpr u hu).2⟩)).elim
  | assignLet _ hv hq h =>
    refine (not_cut_of_tail hzs hk (List.forall_mem_cons.mpr ⟨by simp [hv], ?_⟩)).elim
    exact List.forall_mem_cons.mpr ⟨by simp [hq], fun u hu => (h.inExpr u hu).2⟩
  | printItems _ h => exact (not_cut_of_tail hzs hk h.kind_ne).elim
  | goto _ ht' =>
    exact (not_cut_of_tail hzs hk
      (List.forall_mem_singleton.mpr (by rcases ht'.1 with h | h <;> simp [h]))).elim
  | inputPrompt _ hs ht' hv =>
    exact (not_cut_of_tail hzs hk (by rcases ht' with h | h <;> simp [hs, h, hv])).elim
  | input _ hv | nextOf _ hv | remark _ hv => exact (not_cut_of_tail hzs hk (by simp [hv])).elim
  | print | next | rem | stop => exact (not_cut_of_tail hzs hk (by simp)).elim
  | condGoto hif h hm hkind _ =>
    obtain ⟨front, rfl, hcut⟩ := exists_front_of_cons hif Kind.noConfusion ht hzs
    rcases cut_behind_expr h hm ht hk hcut with ⟨hts, rfl⟩ | ⟨front', rfl, htarget⟩
    · exact ⟨(endsExpr_of_derives h hts).cons _, .inl rfl⟩
    · obtain ⟨_, _, hnil⟩ := exists_front_of_cons hkind Kind.noConfusion ht htarget
      simp at hnil
  | @cond k' m ts us e body hif h hm _ ih =>
    obtain ⟨front, rfl, hcut⟩ := exists_front_of_cons hif Kind.noConfusion ht hzs
    rcases cut_behind_expr h hm ht hk hcut with ⟨hts, rfl⟩ | ⟨front', rfl, hbody⟩
    · exact ⟨(endsExpr_of_derives h hts).cons k', .inl rfl⟩
    · obtain ⟨hends, hw⟩ := ih hbody
      exact ⟨((hends.cons m).append ts).cons k', hw⟩
  | @loop k' v q m ts us start limit hfor hv hq hstart hm hlimit =>
    obtain ⟨front, rfl, hcut⟩ := exists_front_of_loop hfor hv hq ht hzs
    rcases cut_behind_expr hstart hm ht hk hcut with ⟨hts, rfl⟩ | ⟨front', rfl, hlast⟩
    · exact ⟨(endsExpr_of_derives hstart hts).append [k', v, q], .inr (.inl rfl)⟩
    · exact absurd hk ((hlimit.inExpr k (by simp [hlast])).2 w)
  | @loopStep k' v q m l ts us vs start limit step hfor hv hq hstart hm hlimit hl hstep =>
    obtain ⟨front, rfl, hcut⟩ := exists_front_of_loop hfor hv hq ht hzs
    rcases cut_behind_expr hstart hm ht hk hcut with ⟨hts, rfl⟩ | ⟨front', rfl, hmore⟩
    · exact ⟨(endsExpr_of_derives hstart hts).append [k', v, q], .inr (.inl rfl)⟩
    · rcases cut_behind_expr hlimit hl ht hk hmore with ⟨hus, rfl⟩ | ⟨front', rfl, hlast⟩
      · exact ⟨(((endsExpr_of_derives hlimit hus).cons m).append ts).append [k', v, q],
          .inr (.inr rfl)⟩
      · exact absurd hk ((hstep.inExpr k (by simp [hlast])).2 w)

end Statement

/-! ## Line numbers in a source -/

/-- A keyword comes behind a line number, on the same line. -/
theorem Token.exists_keyword_behind {source : String} {t : Token} {front back : List Token}
    (hscan : scan source = front ++ t :: back) (ht : t.kind = .lineNumber) :
    ∃ k rest w, back = k :: rest ∧ k.kind = .keyword w ∧ k.line = t.line := by
  have hget : (scan source)[front.length]? = some t := by simp [hscan]
  obtain ⟨s, _, _, _, hbegun, hs, -, htokens, rfl⟩ := exists_scanner hget
  obtain ⟨_, _, _, -, -, hiff, hremark, hline⟩ := hbegun.exists_lineNumber_iff hs (.inr ht)
  obtain ⟨⟨w, hw⟩, hsame⟩ := (Scanner.keywordFollows_iff hremark).mp (hiff.mp ht).2
  have hback : s.next.2.tokens = back := by
    rw [Scanner.tokens_of_ne_end (by simp [ht]), hscan, List.drop_left] at htokens
    exact (List.cons.inj htokens).2
  obtain ⟨rest, hrest⟩ := List.head?_eq_some_iff.mp s.next.2.head?_tokens
  exact ⟨_, rest, w, hback.symm.trans hrest, hw, hsame.trans hline⟩

namespace Program

/-- These tokens are lines of a program, one behind the other. -/
inductive DerivesLines (p : Program) : List Token → Prop
  | nil : DerivesLines p []
  | cons {t : Token} {ts us : List Token} {n : Nat} {st : Statement} (ht : t.IsTarget n)
      (h : Statement.Derives n ts st) (hst : p.get? n = some st) (hs : DerivesLines p us) :
      DerivesLines p (t :: (ts ++ us))

variable {p q : Program} {d : Cursor} {t k : Token} {ts front back : List Token} {w : Keyword}

/-- A program that was read has all lines that it had before and those that were read. -/
theorem derivesLines_of_readLines (hd : d.peek.kind = .endOfInput)
    (hts : ∀ t ∈ ts, t.kind ≠ .endOfInput) (h : readLines p (d.prepend ts) = .ok q) :
    q.DerivesLines ts ∧ ∀ n st, p.get? n = some st → q.get? n = some st := by
  -- The rest of the tokens is shorter by a line and not by a token.
  induction hlength : ts.length using Nat.strong_induction_on generalizing ts p with
  | _ length ih =>
    cases ts with
    | nil =>
      obtain rfl : p = q := Except.ok.inj ((readLines_of_end hd).symm.trans h)
      exact ⟨.nil, fun _ _ hst => hst⟩
    | cons t us =>
      obtain ⟨hend, hus⟩ := List.forall_mem_cons.mp hts
      obtain ⟨n, st, c, ht, hread, hc⟩ :=
        exists_gives_of_readLines (c := d.prepend (t :: us)) hend h
      have hread' := hread
      rw [Cursor.advance_prepend_cons us hend] at hread'
      obtain ⟨vs, hprepend, hderives⟩ := Statement.read_sound hread'
      obtain ⟨rest, rfl, rfl⟩ :=
        Cursor.exists_of_prepend_eq hprepend hd fun t ht => (hderives.isLegal t ht).2
      rw [readLines_of_gives (c := d.prepend (t :: (vs ++ rest))) ht hread hc] at h
      by_cases hn : n ∈ p.lineNumbers
      · rw [insert_of_mem ht.isLineNumber hn] at h
        cases h
      · rw [insert_of_not_mem ht.isLineNumber hn] at h
        have hshorter : rest.length < length := by
          rw [← hlength, List.length_cons, List.length_append]
          omega
        obtain ⟨hlines, hold⟩ :=
          ih rest.length hshorter (List.forall_mem_append.mp hus).2 h rfl
        have hnew : q.get? n = some st :=
          hold n st ((get?_put hn).mpr (.inr (get?_single.mpr ⟨rfl, rfl⟩)))
        exact ⟨.cons ht hderives hnew hlines, fun m st' hst =>
          hold m st' ((get?_put hn).mpr (.inl hst))⟩

/-- A token is the number of a line of the program, whose statement the next tokens are. -/
def Heads (p : Program) (t : Token) (back : List Token) : Prop :=
  ∃ n st ts, t.IsTarget n ∧ p.get? n = some st ∧ ts <+: back ∧ Statement.Derives n ts st

/-- A token stands inside of a statement of the program, as the last token of an expression. -/
def Swallows (p : Program) (front : List Token) (t : Token) (back : List Token) : Prop :=
  ∃ n st ts us, p.get? n = some st ∧ ts <:+ front ∧ us <+: back ∧
    Statement.Derives n (ts ++ t :: us) st ∧
    Statement.EndsExpr ts t

theorem Heads.append (h : p.Heads t back) (more : List Token) : p.Heads t (back ++ more) := by
  obtain ⟨n, st, ts, hn, hst, hts, h⟩ := h
  exact ⟨n, st, ts, hn, hst, hts.trans (List.prefix_append back more), h⟩

theorem Swallows.prepend (h : p.Swallows front t back) (more : List Token) :
    p.Swallows (more ++ front) t back := by
  obtain ⟨n, st, ts, us, hst, hts, h⟩ := h
  exact ⟨n, st, ts, us, hst, hts.trans (List.suffix_append more front), h⟩

theorem Swallows.append (h : p.Swallows front t back) (more : List Token) :
    p.Swallows front t (back ++ more) := by
  obtain ⟨n, st, ts, us, hst, hts, hus, h⟩ := h
  exact ⟨n, st, ts, us, hst, hts, hus.trans (List.prefix_append back more), h⟩

theorem DerivesLines.head (h : p.DerivesLines (t :: ts)) : ∃ n, t.IsTarget n := by
  cases h with
  | cons ht => exact ⟨_, ht⟩

theorem DerivesLines.cut (h : p.DerivesLines ts) (hts : ts = front ++ t :: k :: back)
    (ht : t.kind = .lineNumber) (hk : k.kind = .keyword w) :
    (¬ w.IsInner ∧ p.Heads t (k :: back)) ∨ (w.IsInner ∧ p.Swallows front t (k :: back)) := by
  induction h generalizing front with
  | nil => simp at hts
  | @cons u ts us n st hu h hst hs ih =>
    cases front with
    | nil =>
      obtain ⟨rfl, hrest⟩ := List.cons.inj hts
      obtain ⟨k', ts, rfl, -⟩ := h.exists_cons
      obtain ⟨rfl, hback⟩ := List.cons.inj hrest
      exact .inl ⟨h.not_isInner hk, n, st, _, hu, hst, ⟨us, hrest⟩, h⟩
    | cons v front =>
      obtain ⟨rfl, hrest⟩ := List.cons.inj hts
      -- The two tokens lie in the lines below, or in this statement, or at the end of it and in
      -- front of the next line.
      rcases List.append_eq_append_iff.mp hrest with ⟨more, rfl, hmore⟩ | ⟨more, rfl, hmore⟩
      · exact (ih hmore).imp_right fun ⟨hw, hswallows⟩ => ⟨hw, hswallows.prepend (u :: ts)⟩
      · match more, hmore with
        | [], hmore =>
          refine (@ih [] hmore.symm).imp_right fun ⟨hw, hswallows⟩ => ⟨hw, ?_⟩
          exact List.append_nil (u :: front) ▸ hswallows.prepend (u :: front)
        | [_], hmore =>
          obtain ⟨-, rfl⟩ := List.cons.inj hmore
          obtain ⟨m, hm⟩ := hs.head
          rcases hm.1 with hkind | hkind <;> cases hk.symm.trans hkind
        | _ :: _ :: more, hmore =>
          obtain ⟨rfl, rfl, rfl⟩ : t = _ ∧ k = _ ∧ back = _ := by simpa using hmore
          obtain ⟨hends, hw⟩ := h.endsExpr rfl ht hk
          exact .inr ⟨hw, n, st, front, k :: more, hst, List.suffix_cons u front,
            ⟨us, rfl⟩, h, hends⟩

/-- A line number in the source of a program heads a statement of the program, unless the keyword
behind it is `THEN`, `TO` or `STEP`: then it is the last token of an expression of a statement
above. -/
theorem heads_or_swallows {source : String} (h : ofSource source = .ok p)
    (hscan : Token.scan source = front ++ t :: back) (ht : t.kind = .lineNumber) :
    ∃ k rest w, back = k :: rest ∧ k.kind = .keyword w ∧
      ((¬ w.IsInner ∧ p.Heads t back) ∨ (w.IsInner ∧ p.Swallows front t back)) := by
  obtain ⟨k, rest, w, rfl, hk, -⟩ := Token.exists_keyword_behind hscan ht
  refine ⟨k, rest, w, rfl, hk, ?_⟩
  obtain ⟨hbody, hend⟩ := Token.exists_scan_eq source
  rw [ofSource, ofTokens_of_not_illegal (not_illegal_of_ofSource h), hbody] at h
  obtain ⟨d, hcursor, hd, -⟩ := cursor_ofTokens (Token.body source) (.behind source.toList)
  rw [hcursor] at h
  obtain ⟨hlines, -⟩ := derivesLines_of_readLines hd hend h
  rw [hbody] at hscan
  rcases List.eq_nil_or_concat' rest with rfl | ⟨rest, last, rfl⟩
  · obtain ⟨-, hlast⟩ := List.append_inj' (hscan.trans (List.append_cons front t [k])) rfl
    rw [← (List.cons.inj hlast).1] at hk
    cases hk
  · obtain ⟨hfront, -⟩ :=
      List.append_inj' (hscan.trans (List.append_assoc front (t :: k :: rest) [last]).symm) rfl
    rcases hlines.cut hfront ht hk with ⟨hw, hheads⟩ | ⟨hw, hswallows⟩
    · exact .inl ⟨hw, hheads.append [last]⟩
    · exact .inr ⟨hw, hswallows.append [last]⟩

/-- A condition without its expression, above a line that begins with `THEN`. -/
def brokenCondition : String := "10 IF\n20 THEN 30\n30 END"

theorem exists_brokenCondition :
    ∃ p, ofSource brokenCondition = .ok p ∧ p.lineNumbers = [10, 30] := by
  have hlines : (ofSource brokenCondition).toOption.map lineNumbers = some [10, 30] := by
    decide +kernel
  cases hp : ofSource brokenCondition with
  | error e =>
    rw [hp] at hlines
    cases hlines
  | ok p =>
    rw [hp] at hlines
    exact ⟨p, rfl, Option.some.inj hlines⟩

theorem scan_brokenCondition :
    Token.scan brokenCondition =
      [⟨.lineNumber, "10", ⟨1, 1⟩⟩, ⟨.keyword .IF, "IF", ⟨1, 4⟩⟩, ⟨.lineNumber, "20", ⟨2, 1⟩⟩,
        ⟨.keyword .THEN, "THEN", ⟨2, 4⟩⟩, ⟨.number, "30", ⟨2, 9⟩⟩, ⟨.lineNumber, "30", ⟨3, 1⟩⟩,
        ⟨.keyword .END, "END", ⟨3, 4⟩⟩, ⟨.endOfInput, "", ⟨3, 7⟩⟩] := by
  with_unfolding_all rfl

theorem heads_or_swallows_brokenCondition :
    ∃ p, ofSource brokenCondition = .ok p ∧
      p.Swallows [⟨.lineNumber, "10", ⟨1, 1⟩⟩, ⟨.keyword .IF, "IF", ⟨1, 4⟩⟩]
        ⟨.lineNumber, "20", ⟨2, 1⟩⟩ ((Token.scan brokenCondition).drop 3) ∧
      p.Heads ⟨.lineNumber, "30", ⟨3, 1⟩⟩ ((Token.scan brokenCondition).drop 6) := by
  obtain ⟨p, hp, -⟩ := exists_brokenCondition
  have htwenty : Token.scan brokenCondition = [_, _] ++ _ :: _ := scan_brokenCondition
  have hthirty : Token.scan brokenCondition = [_, _, _, _, _] ++ _ :: _ := scan_brokenCondition
  rw [scan_brokenCondition]
  refine ⟨p, hp, ?_, ?_⟩
  · obtain ⟨k, rest, w, hback, hk, h⟩ := heads_or_swallows hp htwenty rfl
    obtain ⟨rfl, -⟩ := List.cons.inj hback
    obtain rfl := Kind.keyword.inj hk
    exact (h.resolve_left fun h => h.1 (.inl rfl)).2
  · obtain ⟨k, rest, w, hback, hk, h⟩ := heads_or_swallows hp hthirty rfl
    obtain ⟨rfl, -⟩ := List.cons.inj hback
    obtain rfl := Kind.keyword.inj hk
    exact (h.resolve_right fun h => by simp [Keyword.IsInner] at h).2

/-- A line number in the source of a program need not be the number of any of its lines. -/
theorem lineNumber_missing_brokenCondition :
    ∃ p t, ofSource brokenCondition = .ok p ∧ t ∈ Token.scan brokenCondition ∧
      t.kind = .lineNumber ∧ t.IsTarget 20 ∧
      20 ∉ p.lineNumbers := by
  obtain ⟨p, hp, hlines⟩ := exists_brokenCondition
  refine ⟨p, ⟨.lineNumber, "20", ⟨2, 1⟩⟩, hp, ?_, rfl,
    ⟨.inr rfl, by with_unfolding_all rfl⟩, by simp [hlines]⟩
  rw [scan_brokenCondition]
  simp

end Program

end LineBasic
