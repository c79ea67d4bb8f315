import LineBasic.Proofs.Statement.ExprPhrases
import LineBasic.Statement.Read

/-!
# The grammar of statements

In the usual notation, with `E` for an expression and a comma or semicolon for a separator, it is

    statement ::= name = E | LET name = E
                | PRINT | PRINT items
                | INPUT name | INPUT string separator name
                | GOTO target
                | IF E THEN target | IF E THEN statement
                | FOR name = E TO E | FOR name = E TO E STEP E
                | NEXT | NEXT name
                | REM | REM remark
                | END
    items     ::= E | E separator | E separator items

and `Statement.Derives` says which statement the tokens of a phrase stand for. A phrase depends on
the kinds and texts of its tokens and not on their places (`Statement.Derives.map`).
-/

namespace LineBasic

namespace Token

/-- A comma or a semicolon. -/
def IsSeparator (t : Token) : Prop :=
  t.kind = .comma ∨ t.kind = .semicolon

/-- A number that can be the number of a program line. -/
def IsTarget (t : Token) (n : Nat) : Prop :=
  (t.kind = .number ∨ t.kind = .lineNumber) ∧ lineNumberOf? t.text = some n

end Token

namespace Statement

/-- These tokens are what `PRINT` writes. -/
inductive DerivesItems : List Token → List Expr → Prop
  | last {ts : List Token} {e : Expr} (h : Expr.Derives .comparison ts e) : DerivesItems ts [e]
  | closed {ts : List Token} {t : Token} {e : Expr} (h : Expr.Derives .comparison ts e)
      (ht : t.IsSeparator) :
      DerivesItems (ts ++ [t]) [e]
  | more {ts us : List Token} {t : Token} {e : Expr} {es : List Expr}
      (h : Expr.Derives .comparison ts e) (ht : t.IsSeparator) (hs : DerivesItems us es) :
      DerivesItems (ts ++ t :: us) (e :: es)

/-- These tokens are a statement on the program line `number`. -/
inductive Derives (number : Nat) : List Token → Statement → Prop
  | assign {v q : Token} {ts : List Token} {e : Expr} (hv : v.kind = .name)
      (hq : q.kind = .operator .equal) (h : Expr.Derives .comparison ts e) :
      Derives number (v :: q :: ts) (.assign (.ofText v.text) e)
  | assignLet {k v q : Token} {ts : List Token} {e : Expr} (hk : k.kind = .keyword .LET)
      (hv : v.kind = .name) (hq : q.kind = .operator .equal) (h : Expr.Derives .comparison ts e) :
      Derives number (k :: v :: q :: ts) (.assign (.ofText v.text) e)
  | print {k : Token} (hk : k.kind = .keyword .PRINT) : Derives number [k] (.print [])
  | printItems {k : Token} {ts : List Token} {es : List Expr} (hk : k.kind = .keyword .PRINT)
      (h : DerivesItems ts es) : Derives number (k :: ts) (.print es)
  | input {k v : Token} (hk : k.kind = .keyword .INPUT) (hv : v.kind = .name) :
      Derives number [k, v] (.input "" (.ofText v.text))
  | inputPrompt {k s t v : Token} (hk : k.kind = .keyword .INPUT) (hs : s.kind = .string)
      (ht : t.IsSeparator) (hv : v.kind = .name) :
      Derives number [k, s, t, v] (.input s.text (.ofText v.text))
  | goto {k t : Token} {n : Nat} (hk : k.kind = .keyword .GOTO) (ht : t.IsTarget n) :
      Derives number [k, t] (.goto n)
  /-- A number behind `THEN` is where to go. -/
  | condGoto {k m t : Token} {ts : List Token} {e : Expr} {n : Nat} (hk : k.kind = .keyword .IF)
      (h : Expr.Derives .comparison ts e) (hm : m.kind = .keyword .THEN) (hkind : t.kind = .number)
      (ht : t.IsTarget n) : Derives number (k :: (ts ++ [m, t])) (.cond e (.goto n))
  | cond {k m : Token} {ts us : List Token} {e : Expr} {body : Statement}
      (hk : k.kind = .keyword .IF) (h : Expr.Derives .comparison ts e)
      (hm : m.kind = .keyword .THEN) (hs : Derives number us body) :
      Derives number (k :: (ts ++ m :: us)) (.cond e body)
  | loop {k v q m : Token} {ts us : List Token} {start limit : Expr} (hk : k.kind = .keyword .FOR)
      (hv : v.kind = .name) (hq : q.kind = .operator .equal)
      (hstart : Expr.Derives .comparison ts start) (hm : m.kind = .keyword .TO)
      (hlimit : Expr.Derives .comparison us limit) :
      Derives number (k :: v :: q :: (ts ++ m :: us))
        (.loop (.ofText v.text) start limit (.number 1) number)
  | loopStep {k v q m l : Token} {ts us vs : List Token} {start limit step : Expr}
      (hk : k.kind = .keyword .FOR) (hv : v.kind = .name) (hq : q.kind = .operator .equal)
      (hstart : Expr.Derives .comparison ts start) (hm : m.kind = .keyword .TO)
      (hlimit : Expr.Derives .comparison us limit) (hl : l.kind = .keyword .STEP)
      (hstep : Expr.Derives .comparison vs step) :
      Derives number (k :: v :: q :: (ts ++ m :: (us ++ l :: vs)))
        (.loop (.ofText v.text) start limit step number)
  | next {k : Token} (hk : k.kind = .keyword .NEXT) : Derives number [k] (.next none)
  | nextOf {k v : Token} (hk : k.kind = .keyword .NEXT) (hv : v.kind = .name) :
      Derives number [k, v] (.next (some (.ofText v.text)))
  | rem {k : Token} (hk : k.kind = .keyword .REM) : Derives number [k] (.remark "")
  | remark {k s : Token} (hk : k.kind = .keyword .REM) (hs : s.kind = .string) :
      Derives number [k, s] (.remark s.text)
  | stop {k : Token} (hk : k.kind = .keyword .END) : Derives number [k] .stop

end Statement

theorem lineNumberOf?_eq_some_iff {s : String} {n : Nat} (hplus : '+' ∉ s.toList) :
    lineNumberOf? s = some n ↔ s ≠ "" ∧ (∀ c ∈ s.toList, c.isDigit = true) ∧
      Nat.ofDigitChars 10 s.toList 0 = n ∧ isLineNumber n = true := by
  have hsplit : lineNumberOf? s = if !s.toList.isEmpty && s.toList.all Char.isDigit &&
      isLineNumber (Number.ofDigits s.toList) then some (Number.ofDigits s.toList) else none := by
    unfold lineNumberOf?
    dsimp only
    split
    · rename_i ds hds
      simp [hds] at hplus
    · rfl
  rw [hsplit, Option.ite_none_right_eq_some, Number.ofDigits_eq_ofDigitChars]
  simp only [Bool.and_eq_true, Bool.not_eq_true', List.isEmpty_eq_false_iff, List.all_eq_true,
    Option.some.injEq, ne_eq, String.toList_eq_nil_iff]
  constructor
  · intro ⟨⟨⟨hne, hdigits⟩, hline⟩, hvalue⟩
    exact ⟨hne, hdigits, hvalue, hvalue ▸ hline⟩
  · intro ⟨hne, hdigits, hvalue, hline⟩
    exact ⟨⟨⟨hne, hdigits⟩, hvalue ▸ hline⟩, hvalue⟩

namespace Token.IsTarget

variable {t : Token} {n : Nat}

theorem toLineNumber (h : t.IsTarget n) : t.toLineNumber = .ok n := by
  rw [Token.toLineNumber, h.2]

theorem isLineNumber (h : t.IsTarget n) : isLineNumber n = true := by
  have hn := h.2
  unfold lineNumberOf? at hn
  dsimp only at hn
  split at hn
  all_goals
    split at hn
    · rename_i hcond
      rw [← Option.some.inj hn]
      exact (Bool.and_eq_true_iff.mp hcond).2
    · cases hn

end Token.IsTarget

/-! ## Phrases hold neither illegal characters nor the end of the source -/

/-- A token that can stand in a phrase. -/
@[simp] def Token.IsLegal (t : Token) : Prop :=
  t.kind ≠ .illegal ∧ t.kind ≠ .endOfInput

theorem Token.IsSeparator.isLegal {t : Token} (h : t.IsSeparator) : t.IsLegal := by
  rcases h with h | h <;> simp [h]

theorem Token.IsTarget.isLegal {t : Token} {n : Nat} (h : t.IsTarget n) : t.IsLegal := by
  rcases h.1 with h | h <;> simp [h]

/-- A token that can stand in an expression. -/
@[simp] def Token.InExpr (t : Token) : Prop :=
  t.IsLegal ∧ ∀ k, t.kind ≠ .keyword k

mutual

theorem Expr.Derives.inExpr {level : Level} {ts : List Token} {e : Expr} :
    Derives level ts e → ∀ t ∈ ts, t.InExpr
  | .tighter h => h.inExpr
  | .left _ ht hl hr | .power ht hl hr => by
    simp only [List.forall_mem_append, List.forall_mem_cons]
    exact ⟨hl.inExpr, by simp [ht], hr.inExpr⟩
  | .minus ht h | .plus ht h => List.forall_mem_cons.mpr ⟨by simp [ht], h.inExpr⟩
  | .number ht _ => List.forall_mem_singleton.mpr (by rcases ht with ht | ht <;> simp [ht])
  | .text ht | .builtin ht _ | .var ht _ => List.forall_mem_singleton.mpr (by simp [ht])
  | .call ht hl hr => by simp [ht, hl, hr]
  | .callWith ht hl hr h => by
    simp only [List.forall_mem_append, List.forall_mem_cons]
    exact ⟨by simp [ht], by simp [hl], h.inExpr, by simp [hr]⟩
  | .paren hl hr h => by
    simp only [List.forall_mem_append, List.forall_mem_cons]
    exact ⟨by simp [hl], h.inExpr, by simp [hr]⟩

theorem Expr.DerivesArguments.inExpr {ts : List Token} {es : List Expr} :
    DerivesArguments ts es → ∀ t ∈ ts, t.InExpr
  | .last h => h.inExpr
  | .more ht h hs => by
    simp only [List.forall_mem_append, List.forall_mem_cons]
    exact ⟨h.inExpr, by simp [ht], hs.inExpr⟩

end

theorem Expr.Derives.isLegal {level : Level} {ts : List Token} {e : Expr} (h : Derives level ts e) :
    ∀ t ∈ ts, t.IsLegal :=
  fun t ht => (h.inExpr t ht).1

theorem Statement.DerivesItems.isLegal {ts : List Token} {es : List Expr} (h : DerivesItems ts es) :
    ∀ t ∈ ts, t.IsLegal := by
  induction h with
  | last h => exact h.isLegal
  | closed h ht =>
    exact List.forall_mem_append.mpr ⟨h.isLegal, List.forall_mem_singleton.mpr ht.isLegal⟩
  | more h ht _ ih =>
    exact List.forall_mem_append.mpr ⟨h.isLegal, List.forall_mem_cons.mpr ⟨ht.isLegal, ih⟩⟩

theorem Statement.Derives.isLegal {number : Nat} {ts : List Token} {st : Statement}
    (h : Derives number ts st) : ∀ t ∈ ts, t.IsLegal := by
  induction h with
  | assign hv hq h => simpa [hv, hq] using h.isLegal
  | assignLet hk hv hq h => simpa [hk, hv, hq] using h.isLegal
  | printItems hk h => simpa [hk] using h.isLegal
  | goto hk ht => simpa [hk] using ht.isLegal
  | inputPrompt hk hs ht hv => simpa [hk, hs, hv] using ht.isLegal
  | condGoto hk h hm hkind _ =>
    simp only [List.forall_mem_append, List.forall_mem_cons]
    exact ⟨by simp [hk], h.isLegal, by simp [hm], by simp [hkind], List.forall_mem_nil _⟩
  | cond hk h hm _ ih =>
    simp only [List.forall_mem_append, List.forall_mem_cons]
    exact ⟨by simp [hk], h.isLegal, by simp [hm], ih⟩
  | loop hk hv hq hstart hm hlimit =>
    simp only [List.forall_mem_append, List.forall_mem_cons]
    exact ⟨by simp [hk], by simp [hv], by simp [hq], hstart.isLegal, by simp [hm], hlimit.isLegal⟩
  | loopStep hk hv hq hstart hm hlimit hl hstep =>
    simp only [List.forall_mem_append, List.forall_mem_cons]
    exact ⟨by simp [hk], by simp [hv], by simp [hq], hstart.isLegal, by simp [hm], hlimit.isLegal,
      by simp [hl], hstep.isLegal⟩
  | input hk h | nextOf hk h | remark hk h => simp [hk, h]
  | print hk | next hk | rem hk | stop hk => simp [hk]

/-! ## Phrases in another place -/

/-- A change of tokens that leaves their kinds and texts alone. -/
structure Token.KeepsText (f : Token → Token) : Prop where
  kind : ∀ t, (f t).kind = t.kind
  text : ∀ t, (f t).text = t.text

section map

variable {f : Token → Token} (hf : Token.KeepsText f)
include hf

theorem Token.IsSeparator.map {t : Token} (h : t.IsSeparator) : (f t).IsSeparator := by
  rwa [IsSeparator, hf.kind]

theorem Token.IsTarget.map {t : Token} {n : Nat} (h : t.IsTarget n) : (f t).IsTarget n := by
  rwa [IsTarget, hf.kind, hf.text]

theorem Token.KeepsText.kind_eq {t : Token} {kind : Kind} (h : t.kind = kind) : (f t).kind = kind :=
  (hf.kind t).trans h

mutual

theorem Expr.Derives.map {level : Level} {ts : List Token} {e : Expr} :
    Derives level ts e → Derives level (ts.map f) e
  | .tighter h => .tighter h.map
  | .left hop ht hl hr => by
    rw [List.map_append, List.map_cons]
    exact .left hop (hf.kind_eq ht) hl.map hr.map
  | .power ht hl hr => by
    rw [List.map_append, List.map_cons]
    exact .power (hf.kind_eq ht) hl.map hr.map
  | .minus ht h => .minus (hf.kind_eq ht) h.map
  | .plus ht h => .plus (hf.kind_eq ht) h.map
  | .number ht h => .number (by rwa [hf.kind]) (by rwa [hf.text])
  | .text ht => by
    rw [← hf.text]
    exact .text (hf.kind_eq ht)
  | .builtin ht hb => by
    rw [← hf.text] at hb ⊢
    exact .builtin (hf.kind_eq ht) hb
  | .var ht hb => by
    rw [← hf.text] at hb ⊢
    exact .var (hf.kind_eq ht) hb
  | .call ht hl hr => by
    rw [← hf.text]
    exact .call (hf.kind_eq ht) (hf.kind_eq hl) (hf.kind_eq hr)
  | .callWith ht hl hr h => by
    rw [← hf.text, List.map_cons, List.map_cons, List.map_append]
    exact .callWith (hf.kind_eq ht) (hf.kind_eq hl) (hf.kind_eq hr) h.map
  | .paren hl hr h => by
    rw [List.map_cons, List.map_append]
    exact .paren (hf.kind_eq hl) (hf.kind_eq hr) h.map

theorem Expr.DerivesArguments.map {ts : List Token} {es : List Expr} :
    DerivesArguments ts es → DerivesArguments (ts.map f) es
  | .last h => .last h.map
  | .more ht h hs => by
    rw [List.map_append, List.map_cons]
    exact .more (hf.kind_eq ht) h.map hs.map

end

theorem Statement.DerivesItems.map {ts : List Token} {es : List Expr} (h : DerivesItems ts es) :
    DerivesItems (ts.map f) es := by
  induction h with
  | last h => exact .last (h.map hf)
  | closed h ht =>
    rw [List.map_append]
    exact .closed (h.map hf) (ht.map hf)
  | more h ht _ ih =>
    rw [List.map_append, List.map_cons]
    exact .more (h.map hf) (ht.map hf) ih

/-- A statement is the same wherever its tokens stand. -/
theorem Statement.Derives.map {number : Nat} {ts : List Token} {st : Statement}
    (h : Derives number ts st) : Derives number (ts.map f) st := by
  induction h with
  | assign hv hq h =>
    rw [← hf.text]
    exact .assign (hf.kind_eq hv) (hf.kind_eq hq) (h.map hf)
  | assignLet hk hv hq h =>
    rw [← hf.text]
    exact .assignLet (hf.kind_eq hk) (hf.kind_eq hv) (hf.kind_eq hq) (h.map hf)
  | print hk => exact .print (hf.kind_eq hk)
  | printItems hk h => exact .printItems (hf.kind_eq hk) (h.map hf)
  | input hk hv =>
    rw [← hf.text]
    exact .input (hf.kind_eq hk) (hf.kind_eq hv)
  | @inputPrompt k s t v hk hs ht hv =>
    rw [← hf.text s, ← hf.text v]
    exact .inputPrompt (hf.kind_eq hk) (hf.kind_eq hs) (ht.map hf) (hf.kind_eq hv)
  | goto hk ht => exact .goto (hf.kind_eq hk) (ht.map hf)
  | condGoto hk h hm hkind ht =>
    rw [List.map_cons, List.map_append]
    exact .condGoto (hf.kind_eq hk) (h.map hf) (hf.kind_eq hm) (hf.kind_eq hkind) (ht.map hf)
  | cond hk h hm _ ih =>
    rw [List.map_cons, List.map_append]
    exact .cond (hf.kind_eq hk) (h.map hf) (hf.kind_eq hm) ih
  | loop hk hv hq hstart hm hlimit =>
    rw [← hf.text]
    simp only [List.map_cons, List.map_append]
    exact .loop (hf.kind_eq hk) (hf.kind_eq hv) (hf.kind_eq hq) (hstart.map hf) (hf.kind_eq hm)
      (hlimit.map hf)
  | loopStep hk hv hq hstart hm hlimit hl hstep =>
    rw [← hf.text]
    simp only [List.map_cons, List.map_append]
    exact .loopStep (hf.kind_eq hk) (hf.kind_eq hv) (hf.kind_eq hq) (hstart.map hf) (hf.kind_eq hm)
      (hlimit.map hf) (hf.kind_eq hl) (hstep.map hf)
  | next hk => exact .next (hf.kind_eq hk)
  | nextOf hk hv =>
    rw [← hf.text]
    exact .nextOf (hf.kind_eq hk) (hf.kind_eq hv)
  | rem hk => exact .rem (hf.kind_eq hk)
  | remark hk hs =>
    rw [← hf.text]
    exact .remark (hf.kind_eq hk) (hf.kind_eq hs)
  | stop hk => exact .stop (hf.kind_eq hk)

end map

end LineBasic
