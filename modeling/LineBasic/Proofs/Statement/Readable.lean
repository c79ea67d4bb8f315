import LineBasic.Proofs.Statement.ExprWritten
import LineBasic.Proofs.Statement.Phrases
import LineBasic.Proofs.Token.Follows

/-!
# What statements that were read consist of

The numbers, texts and names of an expression come from its tokens (`Expr.Derives.comesFrom`), and
these are spelled as a source spells them. A statement that was read is made up of such parts, and
what it may have behind a newline is limited: the end of a statement is looked for on its first line
only (`Statement.isReadable_of_read`).
-/

namespace LineBasic

/-! ## Names -/

theorem isWordStart_toUpper {c : Char} (h : isWordStart c = true) :
    isWordStart c.toUpper = true := by
  simp only [isWordStart, Bool.or_eq_true, beq_iff_eq] at h ⊢
  rcases h with h | rfl
  · left
    rwa [isAlpha_toUpper]
  · right
    rfl

theorem isWordChar_toUpper {c : Char} (h : isWordChar c = true) : isWordChar c.toUpper = true := by
  cases halpha : c.isAlpha with
  | true =>
    have hstart : isWordStart c = true := by simp [isWordStart, halpha]
    exact Lexeme.isWordChar_of_isWordStart (isWordStart_toUpper hstart)
  | false => rwa [toUpper_of_not_isAlpha halpha]

theorem IsWord.map_toUpper {cs : List Char} (h : IsWord cs) : IsWord (cs.map Char.toUpper) := by
  obtain ⟨c, body, hc, hbody, hcs⟩ := h
  refine ⟨c.toUpper, body.map Char.toUpper, isWordStart_toUpper hc, ?_, ?_⟩
  · intro d hd
    obtain ⟨b, hb, rfl⟩ := List.mem_map.mp hd
    exact isWordChar_toUpper (hbody b hb)
  · rcases hcs with rfl | rfl
    · exact .inl rfl
    · right
      rw [List.map_append]
      rfl

/-- The name that a name token gives can be spelled. -/
theorem Ident.isSpelled_ofText {s : String} (h : Kind.name.Form s) :
    (Ident.ofText s).IsSpelled where
  form := by
    constructor
    · have hupper : s.toUpper.toList = s.toList.map Char.toUpper := by simp [String.toUpper]
      show IsWord s.toUpper.toList
      rw [hupper]
      exact h.1.map_toUpper
    · have hnone := h.2
      unfold Keyword.ofText? at hnone ⊢
      show (let upper := s.toUpper.toUpper; Keyword.all.find? fun k => k.text == upper) = none
      rwa [toUpper_toUpper]
  upper := congrArg Ident.mk (toUpper_toUpper s)

/-! ## The parts of an expression -/

namespace Expr

variable {e : Expr} {ts us : List Token}

/-- What an expression is at its head comes from a token. A zero may also stand before a minus
sign. -/
def ComesFrom (ts : List Token) : Expr → Prop
  | .number x =>
    x = 0 ∨ ∃ t ∈ ts, (t.kind = .number ∨ t.kind = .lineNumber) ∧
      Number.ofText? t.text.toList = some x
  | .text s => ∃ t ∈ ts, t.kind = .string ∧ t.text = s
  | .var v => ∃ t ∈ ts, t.kind = .name ∧ .ofText t.text = v ∧ ∀ f : Builtin, f.name ≠ v.name
  | .call f _ => ∃ t ∈ ts, t.kind = .name ∧ .ofText t.text = f
  | .paren _ | .binary _ _ _ => True

theorem ComesFrom.mono (hsub : ts ⊆ us) (h : e.ComesFrom ts) : e.ComesFrom us := by
  cases e with
  | number x =>
    rcases h with h | ⟨t, ht, h⟩
    · exact .inl h
    · exact .inr ⟨t, hsub ht, h⟩
  | text | var | call =>
    obtain ⟨t, ht, h⟩ := h
    exact ⟨t, hsub ht, h⟩
  | paren | binary => trivial

/-- The parts of an operator phrase come from the phrases of its operands. -/
theorem comesFrom_binary {op : Operator} {l r : Expr} {ls rs : List Token} {t : Token}
    (hl : l.ComesFrom ls) (hr : r.ComesFrom rs) :
    ∀ a ∈ binary op l r :: (binary op l r).operands, a.ComesFrom (ls ++ t :: rs) := by
  have hright : r.ComesFrom (ls ++ t :: rs) := hr.mono fun u hu => by simp [hu]
  exact List.forall_mem_cons.mpr ⟨trivial, List.forall_mem_cons.mpr
    ⟨hl.mono (List.subset_append_left _ _), List.forall_mem_singleton.mpr hright⟩⟩

mutual

theorem Derives.comesFrom {level : Level} {ts : List Token} {e : Expr} :
    Derives level ts e → ∀ a ∈ e :: e.operands, a.ComesFrom ts
  | .tighter h => h.comesFrom
  | .plus _ h => fun a ha => (h.comesFrom a ha).mono (List.subset_cons_self _ _)
  | .left _ _ hl hr | .power _ hl hr =>
    comesFrom_binary (hl.comesFrom _ List.mem_cons_self) (hr.comesFrom _ List.mem_cons_self)
  | .minus _ h =>
    comesFrom_binary (show ComesFrom [] (.number 0) from .inl rfl)
      (h.comesFrom _ List.mem_cons_self)
  | .number ht h => List.forall_mem_singleton.mpr (.inr ⟨_, List.mem_cons_self, ht, h⟩)
  | .text ht => List.forall_mem_singleton.mpr ⟨_, List.mem_cons_self, ht, rfl⟩
  | .builtin ht _ | .call ht _ _ => List.forall_mem_singleton.mpr ⟨_, List.mem_cons_self, ht, rfl⟩
  | .var ht hf => List.forall_mem_singleton.mpr ⟨_, List.mem_cons_self, ht, rfl, hf⟩
  | .callWith ht _ _ h => by
    refine List.forall_mem_cons.mpr ⟨⟨_, List.mem_cons_self, ht, rfl⟩, ?_⟩
    intro a ha
    apply (h.comesFrom a ha).mono
    intro u hu
    simp [hu]
  | .paren _ _ h => by
    have hinner := h.comesFrom _ List.mem_cons_self
    refine List.forall_mem_cons.mpr ⟨trivial, List.forall_mem_singleton.mpr (hinner.mono ?_)⟩
    intro u hu
    simp [hu]

theorem DerivesArguments.comesFrom {ts : List Token} {es : List Expr} :
    DerivesArguments ts es → ∀ a ∈ es, a.ComesFrom ts
  | .last h => List.forall_mem_singleton.mpr (h.comesFrom _ List.mem_cons_self)
  | .more _ h hs => by
    have hfirst := h.comesFrom _ List.mem_cons_self
    refine List.forall_mem_cons.mpr ⟨hfirst.mono (List.subset_append_left _ _), ?_⟩
    intro a ha
    apply (hs.comesFrom a ha).mono
    intro u hu
    simp [hu]

end

/-- What comes from well-spelled tokens can be spelled. -/
theorem ComesFrom.isSpelled (h : e.ComesFrom ts) (hts : ∀ t ∈ ts, t.WellSpelled) : e.IsSpelled := by
  cases e with
  | number x =>
    rcases h with rfl | ⟨t, ht, hkind, htext⟩
    · exact ⟨0, Nat.zero_le _, Number.zero_eq_ofMagnitude⟩
    · exact Number.exists_ofMagnitude_of_ofText? ((hts t ht).number hkind) htext
  | text s =>
    obtain ⟨t, ht, hkind, rfl⟩ := h
    exact (hts t ht).string hkind
  | var v =>
    obtain ⟨t, ht, hkind, rfl, hbuiltin⟩ := h
    exact ⟨Ident.isSpelled_ofText ((hts t ht).name hkind), hbuiltin⟩
  | call f es =>
    obtain ⟨t, ht, hkind, rfl⟩ := h
    exact Ident.isSpelled_ofText ((hts t ht).name hkind)
  | paren | binary => trivial

end Expr

/-! ## Lines -/

/-- The tokens from a cursor on follow a token other than `REM`, whose text ends on a line or below
it. -/
def Cursor.FromLine (c : Cursor) (line : Nat) : Prop :=
  ∃ t : Token, (t :: c.tokens).IsChain Token.Follows ∧ t.kind ≠ .keyword .REM ∧
    line ≤ t.line + t.text.toList.count '\n'

theorem Cursor.peek_of_not_atEndOfStatement {c : Cursor} {line : Nat}
    (h : c.atEndOfStatement line = false) : c.peek.kind ≠ .endOfInput ∧ c.peek.line = line := by
  unfold Cursor.atEndOfStatement at h
  split at h
  · cases h
  · cases h
  · rename_i hkind _
    exact ⟨hkind, by simpa using h⟩

namespace Cursor.FromLine

variable {c d : Cursor} {line line' : Nat} {t : Token}

theorem mono (h : c.FromLine line') (hle : line ≤ line') : c.FromLine line := by
  obtain ⟨t, hchain, hrem, hline⟩ := h
  exact ⟨t, hchain, hrem, hle.trans hline⟩

theorem line_le (h : (d.prepend [t]).FromLine line) : line ≤ t.line := by
  obtain ⟨u, hchain, _, hline⟩ := h
  exact hline.trans (List.isChain_cons_cons.mp hchain).1.line_le

theorem wellSpelled (h : (d.prepend [t]).FromLine line) : t.WellSpelled := by
  obtain ⟨u, hchain, hrem, _⟩ := h
  exact (List.isChain_cons_cons.mp hchain).1.wellSpelled hrem

theorem behind (h : (d.prepend [t]).FromLine line) (ht : t.kind ≠ .keyword .REM) :
    d.FromLine (line + t.text.toList.count '\n') := by
  have hline := h.line_le
  obtain ⟨u, hchain, _, _⟩ := h
  exact ⟨t, (List.isChain_cons_cons.mp hchain).2, ht, Nat.add_le_add_right hline _⟩

theorem behind_kind {kind : Kind} (h : (d.prepend [t]).FromLine line) (ht : t.kind = kind)
    (hkind : kind ≠ .keyword .REM) : d.FromLine line :=
  (h.behind (ht ▸ hkind)).mono (Nat.le_add_right _ _)

/-- Behind a phrase without `REM` the line is as far down as before it, and further if it has a
newline. -/
theorem behind_phrase {ts : List Token} (h : (d.prepend ts).FromLine line)
    (hts : ∀ t ∈ ts, t.kind ≠ .keyword .REM) :
    (∀ t ∈ ts, t.WellSpelled) ∧ d.FromLine line ∧
      ((∃ t ∈ ts, '\n' ∈ t.text.toList) → d.FromLine (line + 1)) := by
  induction ts generalizing line with
  | nil => exact ⟨by simp, h, by simp⟩
  | cons t ts ih =>
    have htail : ∀ t ∈ ts, t.kind ≠ .keyword .REM := fun u hu => hts u (List.mem_cons_of_mem _ hu)
    rw [← List.singleton_append, Cursor.prepend_append] at h
    have hbehind := h.behind (hts t List.mem_cons_self)
    obtain ⟨hspelled, hline, hnewline⟩ := ih (hbehind.mono (Nat.le_add_right _ _)) htail
    refine ⟨List.forall_mem_cons.mpr ⟨h.wellSpelled, hspelled⟩, hline, ?_⟩
    rintro ⟨u, hu, hmem⟩
    rcases List.mem_cons.mp hu with rfl | hu
    · have hcount : 1 ≤ u.text.toList.count '\n' := List.count_pos_iff.mpr hmem
      exact (ih (hbehind.mono (Nat.add_le_add_left hcount _)) htail).2.1
    · exact hnewline ⟨u, hu, hmem⟩

/-- Where the line of a statement has not ended, nothing before is further down. -/
theorem le_of_not_atEndOfStatement (h : c.FromLine line') (hend : c.atEndOfStatement line = false) :
    line' ≤ line := by
  obtain ⟨hkind, hline⟩ := peek_of_not_atEndOfStatement hend
  rw [Cursor.eq_prepend_peek hkind] at h
  exact hline ▸ h.line_le

end Cursor.FromLine

/-- An expression that was read can be spelled, and its newlines lie before what follows it. -/
theorem Expr.isReadable_of_read {c d : Cursor} {e : Expr} {line : Nat} (hc : c.FromLine line)
    (h : (Expr.read c).Gives e d) :
    e.IsReadable ∧ d.FromLine line ∧ (¬ e.OneLine → d.FromLine (line + 1)) := by
  obtain ⟨ts, rfl, hts⟩ := exists_of_read_gives h
  have hrem : ∀ t ∈ ts, t.kind ≠ .keyword .REM := fun t ht => (hts.inExpr t ht).2 .REM
  obtain ⟨hspelled, hline, hnewline⟩ := hc.behind_phrase hrem
  have hparts := hts.comesFrom
  refine ⟨fun a ha => (hparts a ha).isSpelled hspelled, hline, ?_⟩
  intro hmore
  apply hnewline
  simp only [OneLine, not_forall, not_not] at hmore
  obtain ⟨s, hs, hmem⟩ := hmore
  obtain ⟨t, ht, _, rfl⟩ := hparts _ hs
  exact ⟨t, ht, hmem⟩

/-! ## Statements -/

namespace Statement

/-- What is known of a statement that was read on a program line. `onLine` says whether it begins on
the physical line of its number: where it does not, `PRINT`, `NEXT` and `REM` have nothing behind
them. -/
def IsReadable (number : Nat) (onLine : Prop) : Statement → Prop
  | .stop | .next none => True
  | .loop v start limit step line =>
    v.IsSpelled ∧ start.IsReadable ∧ limit.IsReadable ∧ step.IsReadable ∧ line = number
  | .goto n => isLineNumber n = true
  | .cond condition body => condition.IsReadable ∧
      body.IsReadable number (onLine ∧ condition.OneLine)
  | .input prompt v => Kind.string.Form prompt ∧ v.IsSpelled
  | .assign v e => v.IsSpelled ∧ e.IsReadable
  | .next (some v) => onLine ∧ v.IsSpelled
  | .print items => (∀ e ∈ items, e.IsReadable) ∧
      (items = [] ∨ onLine ∧ ∀ e ∈ items.dropLast, e.OneLine)
  | .remark text => text = "" ∨ onLine ∧ IsRemark text.toList

theorem IsReadable.mono {number : Nat} {p q : Prop} {st : Statement} (h : st.IsReadable number p)
    (hpq : p → q) : st.IsReadable number q := by
  induction st generalizing p q with
  | cond condition body ih => exact ⟨h.1, ih h.2 fun hp => ⟨hpq hp.1, hp.2⟩⟩
  | next v =>
    cases v with
    | none => trivial
    | some v => exact ⟨hpq h.1, h.2⟩
  | print items => exact ⟨h.1, h.2.imp_right fun hp => ⟨hpq hp.1, hp.2⟩⟩
  | remark text => exact h.imp_right fun hp => ⟨hpq hp.1, hp.2⟩
  | stop | loop | goto | input | assign => exact h

variable {line number first : Nat} {c d : Cursor} {st : Statement}

theorem isReadable_of_readItems {line first : Nat} {c d : Cursor} {es : List Expr}
    (hc : c.FromLine first) (hle : line ≤ first) (h : (readItems line c).Gives es d) :
    (∀ e ∈ es, e.IsReadable) ∧ ∀ e ∈ es.dropLast, e.OneLine := by
  obtain ⟨e, c', he, hrest⟩ := readItems_gives.mp h
  obtain ⟨hreadable, hc', hmore⟩ := Expr.isReadable_of_read hc he
  rcases hrest with ⟨_, rfl, _⟩ | ⟨_, _, rfl, _⟩ | ⟨hsep, hend, es', hes, rfl⟩
  · exact ⟨List.forall_mem_singleton.mpr hreadable, by simp⟩
  · exact ⟨List.forall_mem_singleton.mpr hreadable, by simp⟩
  · have hpeek := Cursor.eq_prepend_peek hsep.isLegal.2
    have hrem : c'.peek.kind ≠ .keyword .REM := by rcases hsep with hsep | hsep <;> simp [hsep]
    have hadvance : ∀ {n}, c'.FromLine n → c'.advance.FromLine n := by
      intro n hn
      rw [hpeek] at hn
      exact hn.behind_kind rfl hrem
    obtain ⟨hitems, hlines⟩ := isReadable_of_readItems (hadvance hc') hle hes
    -- What follows the separator is on the line, so no newline comes before it.
    have hone : e.OneLine := by
      by_contra hnewline
      have hfirst := (hadvance (hmore hnewline)).le_of_not_atEndOfStatement hend
      omega
    refine ⟨List.forall_mem_cons.mpr ⟨hreadable, hitems⟩, ?_⟩
    cases es' with
    | nil => simp
    | cons e' es' => exact List.forall_mem_cons.mpr ⟨hone, hlines⟩
termination_by c.size
decreasing_by
  have := he.size_le
  have := Cursor.size_advance_lt hsep.isLegal.2
  omega

theorem isReadable_of_readAssign (hc : c.FromLine first) (h : (readAssign c).Gives st d)
    {onLine : Prop} : st.IsReadable number onLine := by
  obtain ⟨v, q, c', e, hv, hq, rfl, he, rfl⟩ := readAssign_gives.mp h
  have hc' : ((c'.prepend [q]).prepend [v]).FromLine first := hc
  have hq' := hc'.behind_kind hv Kind.noConfusion
  refine ⟨Ident.isSpelled_ofText (hc'.wellSpelled.name hv), ?_⟩
  exact (Expr.isReadable_of_read (hq'.behind_kind hq Kind.noConfusion) he).1

theorem isReadable_of_readGoto (h : (readGoto c).Gives st d) {onLine : Prop} :
    st.IsReadable number onLine := by
  obtain ⟨t, n, ht, _, rfl⟩ := readGoto_gives.mp h
  exact ht.isLineNumber

theorem isReadable_of_readInput (hc : c.FromLine first) (h : (readInput c).Gives st d)
    {onLine : Prop} : st.IsReadable number onLine := by
  rcases readInput_gives.mp h with ⟨v, hv, rfl, rfl⟩ | ⟨s, t, v, hs, ht, hv, rfl, rfl⟩
  · exact ⟨List.not_mem_nil, Ident.isSpelled_ofText (hc.wellSpelled.name hv)⟩
  · have hs' : (((d.prepend [v]).prepend [t]).prepend [s]).FromLine first := hc
    have ht' := hs'.behind_kind hs Kind.noConfusion
    have hrem : t.kind ≠ .keyword .REM := by rcases ht with ht | ht <;> simp [ht]
    exact ⟨hs'.wellSpelled.string hs,
      Ident.isSpelled_ofText ((ht'.behind_kind rfl hrem).wellSpelled.name hv)⟩

theorem isReadable_of_readLoop (hc : c.FromLine first) (h : (readLoop number c).Gives st d)
    {onLine : Prop} : st.IsReadable number onLine := by
  obtain ⟨v, q, c₁, start, m, c₂, limit, c₃, step, hv, hq, rfl, hstart, hm, hlimit, hstep, rfl⟩ :=
    readLoop_gives.mp h
  have hc' : ((c₁.prepend [q]).prepend [v]).FromLine first := hc
  have hq' := hc'.behind_kind hv Kind.noConfusion
  obtain ⟨hstart', hm', _⟩ := Expr.isReadable_of_read (hq'.behind_kind hq Kind.noConfusion) hstart
  obtain ⟨hlimit', hc₃, _⟩ := Expr.isReadable_of_read (hm'.behind_kind hm (by decide)) hlimit
  refine ⟨Ident.isSpelled_ofText (hc'.wellSpelled.name hv), hstart', hlimit', ?_, rfl⟩
  rcases readStep_gives.mp hstep with ⟨_, rfl, _⟩ | ⟨l, c', hl, rfl, hread⟩
  · exact List.forall_mem_singleton.mpr Number.exists_one_eq_ofMagnitude
  · exact (Expr.isReadable_of_read (hc₃.behind_kind hl (by decide)) hread).1

theorem isReadable_of_readNext (hc : c.FromLine first) (h : (readNext line c).Gives st d) :
    st.IsReadable number (first ≤ line) := by
  rcases readNext_gives.mp h with ⟨_, rfl, _⟩ | ⟨hend, v, hv, rfl, rfl⟩
  · trivial
  · exact ⟨hc.le_of_not_atEndOfStatement hend, Ident.isSpelled_ofText (hc.wellSpelled.name hv)⟩

theorem isReadable_of_readPrint (hc : c.FromLine first) (hle : line ≤ first)
    (h : (readPrint line c).Gives st d) : st.IsReadable number (first ≤ line) := by
  unfold readPrint at h
  split at h
  · obtain ⟨rfl, _⟩ := Reading.ok_gives.mp h
    exact ⟨by simp, .inl rfl⟩
  · rename_i hend
    obtain ⟨es, hes, rfl⟩ := Reading.map_gives.mp h
    obtain ⟨hitems, hlines⟩ := isReadable_of_readItems hc hle hes
    exact ⟨hitems, .inr ⟨hc.le_of_not_atEndOfStatement (Bool.not_eq_true _ ▸ hend), hlines⟩⟩

/-- A remark that was read stands on the line of its `REM`. -/
theorem isReadable_of_readRemark {k : Token} (hc : (c.prepend [k]).FromLine first)
    (hk : k.kind = .keyword .REM) (hle : line ≤ first) (h : (readRemark line c).Gives st d) :
    st.IsReadable number (first ≤ line) := by
  rcases readRemark_gives.mp h with ⟨_, rfl, _⟩ | ⟨hend, s, hs, rfl, rfl⟩
  · exact .inl rfl
  · have hfirst : first ≤ k.line := hc.line_le
    have hline : s.line = line := (Cursor.peek_of_not_atEndOfStatement hend).2
    obtain ⟨u, hchain, _, _⟩ := hc
    have hfollows : k.Follows s :=
      (List.isChain_cons_cons.mp (List.isChain_cons_cons.mp hchain).2).1
    have hle' : k.line ≤ s.line := (Nat.le_add_right _ _).trans hfollows.line_le
    exact .inr ⟨by omega, hfollows.isRemark hk hs (by omega)⟩

/-- A statement that was read can be written in a source. -/
theorem isReadable_of_read {line number first : Nat} {c d : Cursor} {st : Statement}
    (hc : c.FromLine first) (hle : line ≤ first) (h : (read line number c).Gives st d) :
    st.IsReadable number (first ≤ line) := by
  by_cases hname : c.peek.kind = .name
  · exact isReadable_of_readAssign hc ((read_gives_of_name hname).mp h)
  by_cases hkeyword : ∃ k, c.peek.kind = .keyword k
  case neg => exact absurd h (not_read_gives hname fun k hk => hkeyword ⟨k, hk⟩)
  obtain ⟨k, hk⟩ := hkeyword
  replace h := (read_gives_of_keyword hk).mp h
  have hpeek : (c.advance.prepend [c.peek]).FromLine first := by
    rwa [← Expr.eq_prepend_of_kind hk Kind.noConfusion]
  have hbehind : k ≠ .REM → c.advance.FromLine first := by
    intro hrem
    apply hpeek.behind_kind hk
    simpa using hrem
  cases k with
  | END =>
    obtain ⟨rfl, _⟩ := Reading.ok_gives.mp h
    trivial
  | FOR => exact isReadable_of_readLoop (hbehind Keyword.noConfusion) h
  | GOTO => exact isReadable_of_readGoto h
  | IF =>
    obtain ⟨e, m, c', body, he, hm, rfl, hbody⟩ := readBehind_cond_gives.mp h
    obtain ⟨hcondition, hm', hmore⟩ := Expr.isReadable_of_read (hbehind Keyword.noConfusion) he
    have hc' := hm'.behind_kind hm (by decide)
    refine ⟨hcondition, ?_⟩
    rcases hbody with ⟨_, hgoto⟩ | ⟨_, hread⟩
    · exact isReadable_of_readGoto hgoto
    · by_cases hone : e.OneLine
      · exact (isReadable_of_read hc' hle hread).mono fun hfirst => ⟨hfirst, hone⟩
      · -- The body begins on a later line.
        have hlater := (hmore hone).behind_kind hm (by decide)
        exact (isReadable_of_read hlater (Nat.le_succ_of_le hle) hread).mono fun hfirst =>
          absurd hfirst (by omega)
  | INPUT => exact isReadable_of_readInput (hbehind Keyword.noConfusion) h
  | LET => exact isReadable_of_readAssign (hbehind Keyword.noConfusion) h
  | NEXT => exact isReadable_of_readNext (hbehind Keyword.noConfusion) h
  | PRINT => exact isReadable_of_readPrint (hbehind Keyword.noConfusion) hle h
  | REM => exact isReadable_of_readRemark hpeek hk hle h
  | STEP | THEN | TO => exact absurd h Reading.error_gives
termination_by c.size
decreasing_by
  all_goals
    have := Cursor.size_advance_lt (c := c) (by rw [hk]; exact Kind.noConfusion)
    have := he.size_le
    simp only [Cursor.size_prepend] at this
    omega

end Statement

end LineBasic
