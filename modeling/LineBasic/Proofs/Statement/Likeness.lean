import Mathlib.Data.List.Forall2
import LineBasic.Program.Read
import LineBasic.Proofs.Statement.Phrases
import LineBasic.Proofs.Token.Lines

/-!
# Tokens that readers cannot tell apart

What is read depends on the kinds of the tokens, on the physical lines on which they stand, on names
in upper case, and on the texts of strings and numbers. A `Likeness` is a relation of tokens that
agree in this, together with a relation of the errors that are met at such tokens. From two lists of
tokens that are related up to their first end tokens the same program is read, or reading fails with
related errors (`Likeness.ofTokens`). All errors of reading are made in one way: they have one of
the codes of `ErrorCode.OfReading`, and the place of the token at which they are met.
-/

namespace LineBasic

/-- The codes of errors that come of reading tokens. -/
def ErrorCode.OfReading (code : ErrorCode) : Prop :=
  code = syntaxError ∨ code = invalidLineNumber ∨ code = duplicateLine

/-- A relation of tokens that readers cannot tell apart, and one of the errors that are met at such
tokens. -/
structure Likeness where
  token : Token → Token → Prop
  error : Error → Error → Prop
  kind_eq : ∀ {t u}, token t u → u.kind = t.kind
  line_eq : ∀ {t u}, token t u → t.kind ≠ .endOfInput → u.line = t.line
  name_eq : ∀ {t u}, token t u → t.kind = .name → Ident.ofText u.text = .ofText t.text
  text_eq : ∀ {t u}, token t u → t.kind = .string ∨ t.kind = .number ∨ t.kind = .lineNumber →
    u.text = t.text
  error_of_token : ∀ {t u}, token t u → ∀ {code : ErrorCode}, code.OfReading →
    ∀ detail : Token → String, error ((Error.because code (detail t)).atPosition t.position)
      ((Error.because code (detail u)).atPosition u.position)
  illegalError : ∀ {t u}, token t u → t.kind = .illegal → error t.illegalError u.illegalError

/-! ## Readers without proofs of termination -/

namespace Expr

theorem readMore_eq (least : Nat) (left : Expr) (c : Cursor) :
    readMore least left c = match c.peek.kind with
      | .operator op =>
        if op.precedence < least then .ok left
        else
          Reading.behindNext <|
            (readAt op.rightPrecedence c.advance).andThen fun right d _ =>
              readMore least (.binary op left right) d
      | _ => .ok left := by
  rw [readMore]
  split <;> simp_all

/-- Reads the number that a token spells. -/
def readNumber (t : Token) (c : Cursor) : Reading Expr c :=
  match ofNumber? t with
  | some e => .ok e
  | none => .error (t.syntaxError ("invalid number " ++ t.describe))

theorem readOperand_eq (c : Cursor) :
    readOperand c = Reading.behindNext (match c.peek.kind with
      | .operator .subtract => (readAt signPrecedence c.advance).map (.binary .subtract (.number 0))
      | .operator .add => readAt signPrecedence c.advance
      | .leftParen =>
        (readAt 0 c.advance).andThen fun e d _ => (d.expect .rightParen "')'").map fun _ => .paren e
      | .number | .lineNumber => readNumber c.peek c.advance
      | .string => .ok (.text c.peek.text)
      | .name =>
        if c.advance.peek.kind = .leftParen then
          Reading.behindNext <|
            if c.advance.advance.peek.kind = .rightParen then
              Reading.behindNext <| .ok (.call (.ofText c.peek.text) [])
            else (readArguments c.advance.advance).map (.call (.ofText c.peek.text))
        else .ok (ofName (.ofText c.peek.text))
      | _ => .error (c.peek.unexpected "expression")) := by
  rw [readOperand]
  split
  · simp_all
  · simp_all
  · simp_all
  · rename_i hkind
    rewrite [hkind]
    rfl
  · rename_i hkind
    rewrite [hkind]
    rfl
  · simp_all
  · simp_all
  · simp_all

theorem readArguments_eq (c : Cursor) :
    readArguments c = (readAt 0 c).andThen fun e d _ => match d.peek.kind with
      | .rightParen => Reading.behindNext <| .ok [e]
      | .comma => Reading.behindNext <| (readArguments d.advance).map (e :: ·)
      | _ => Reading.behindNext <| .error (d.peek.unexpected "',' or ')'") := by
  rw [readArguments]
  congr
  funext e d h
  split <;> simp_all

end Expr

namespace Statement

theorem readItems_eq (line : Nat) (c : Cursor) :
    readItems line c = (Expr.read c).andThen fun e d _ =>
      if d.peek.kind = .comma ∨ d.peek.kind = .semicolon then
        Reading.behindNext <|
          if d.advance.atEndOfStatement line then .ok [e]
          else (readItems line d.advance).map (e :: ·)
      else .ok [e] := by
  rw [readItems]
  congr

theorem read_eq (line number : Nat) (c : Cursor) :
    read line number c = match c.peek.kind with
      | .name => readAssign c
      | .keyword k => Reading.behindNext (readBehind line number c.peek k c.advance)
      | _ => .error (c.peek.unexpected "statement") := by
  rw [read]
  split
  · simp_all
  · rename_i k hk
    cases k <;> simp_all [readBehind]
  · simp_all

end Statement

namespace Program

theorem read_eq (p : Program) (c : Cursor) :
    p.read c = match c.peek.kind with
      | .endOfInput => .ok p
      | .lineNumber | .number =>
        Reading.behindNext (p.readLineThen c.peek c.advance fun q d _ => q.read d)
      | _ => Reading.behindNext <| .error (c.peek.unexpected "line number") := by
  rw [read]
  split <;> simp_all

/-- A line that is turned away gives an error that says no more than the cause. -/
theorem exists_eq_because_of_insert {p : Program} {n : Nat} {st : Statement} {e : Error}
    (h : (insert n st p).1 = .error e) :
    ∃ code detail, code.OfReading ∧ e = .because code detail := by
  rcases eq_because_of_insert h with rfl | rfl
  · exact ⟨_, _, .inr (.inl rfl), rfl⟩
  · exact ⟨_, _, .inr (.inr rfl), rfl⟩

end Program

namespace Likeness

variable (x : Likeness)

/-- Cursors that show related tokens as they go on. They stand still at an end token, and need not
be related behind it. -/
inductive Cursors : Cursor → Cursor → Prop
  | stop {c d : Cursor} (hend : c.peek.kind = .endOfInput) (h : x.token c.peek d.peek) : Cursors c d
  | token {c d : Cursor} (h : x.token c.peek d.peek) (hrest : Cursors c.advance d.advance) :
      Cursors c d

/-- The same result, or errors that are related. -/
inductive Results {α : Type} : Except Error α → Except Error α → Prop
  | ok (a : α) : Results (.ok a) (.ok a)
  | error {e e' : Error} (h : x.error e e') : Results (.error e) (.error e')

/-- Readings with results and rests that are related. -/
structure Readings {α : Type} {c d : Cursor} (r : Reading α c) (s : Reading α d) : Prop where
  result : x.Results r.result s.result
  rest : x.Cursors r.rest s.rest

variable {x}

namespace Cursors

variable {c d : Cursor}

theorem peek (h : x.Cursors c d) : x.token c.peek d.peek := by
  cases h with
  | stop _ h => exact h
  | token h _ => exact h

theorem kind_eq (h : x.Cursors c d) : d.peek.kind = c.peek.kind :=
  x.kind_eq h.peek

theorem advance (h : x.Cursors c d) : x.Cursors c.advance d.advance := by
  cases h with
  | stop hend h =>
    rw [Cursor.advance_of_end hend, Cursor.advance_of_end ((x.kind_eq h).trans hend)]
    exact .stop hend h
  | token _ hrest => exact hrest

/-- Related tokens can be put before cursors. -/
theorem prepend (h : x.Cursors c d) {ts us : List Token} (hts : List.Forall₂ x.token ts us) :
    x.Cursors (c.prepend ts) (d.prepend us) := by
  induction hts with
  | nil => exact h
  | @cons t u ts us ht _ ih =>
    by_cases hend : t.kind = .endOfInput
    · exact .stop hend ht
    · refine .token ht ?_
      rw [Cursor.advance_prepend_cons ts hend, Cursor.advance_prepend_cons us (x.kind_eq ht ▸ hend)]
      exact ih

theorem atEndOfStatement_eq (h : x.Cursors c d) (line : Nat) :
    d.atEndOfStatement line = c.atEndOfStatement line := by
  unfold Cursor.atEndOfStatement
  rw [h.kind_eq]
  split
  · rfl
  · rfl
  · rename_i hend _
    rw [x.line_eq h.peek hend]

/-- Syntax errors at related tokens are related, if both say the same about them. -/
theorem syntaxError (h : x.Cursors c d) (detail : Token → String) :
    x.error (c.peek.syntaxError (detail c.peek)) (d.peek.syntaxError (detail d.peek)) :=
  x.error_of_token h.peek (.inl rfl) detail

theorem unexpected (h : x.Cursors c d) (what : String) :
    x.error (c.peek.unexpected what) (d.peek.unexpected what) :=
  h.syntaxError fun t => "expected " ++ what ++ ", found " ++ t.describe

end Cursors

namespace Readings

variable {α β : Type} {c d : Cursor}

theorem ok (h : x.Cursors c d) (a : α) : x.Readings (.ok a : Reading α c) (.ok a : Reading α d) :=
  ⟨.ok a, h⟩

theorem error (h : x.Cursors c d) {e e' : Error} (he : x.error e e') :
    x.Readings (.error e : Reading α c) (.error e' : Reading α d) :=
  ⟨.error he, h⟩

theorem behindNext {r : Reading α c.advance} {s : Reading α d.advance} (h : x.Readings r s) :
    x.Readings r.behindNext s.behindNext :=
  ⟨h.result, h.rest⟩

theorem map {r : Reading α c} {s : Reading α d} (h : x.Readings r s) (f : α → β) :
    x.Readings (r.map f) (s.map f) := by
  obtain ⟨result, rest, hrest⟩ := r
  obtain ⟨result', rest', hrest'⟩ := s
  obtain ⟨hresult, hrests⟩ := h
  cases hresult with
  | ok a => exact ⟨.ok (f a), hrests⟩
  | error he => exact ⟨.error he, hrests⟩

theorem andThen {r : Reading α c} {s : Reading α d} (h : x.Readings r s)
    {f : α → (c' : Cursor) → c'.size ≤ c.size → Reading β c'}
    {g : α → (d' : Cursor) → d'.size ≤ d.size → Reading β d'}
    (hfg : ∀ a c' d' hc' hd', x.Cursors c' d' → x.Readings (f a c' hc') (g a d' hd')) :
    x.Readings (r.andThen f) (s.andThen g) := by
  obtain ⟨result, rest, hrest⟩ := r
  obtain ⟨result', rest', hrest'⟩ := s
  obtain ⟨hresult, hrests⟩ := h
  cases hresult with
  | ok a =>
    exact ⟨(hfg a rest rest' hrest hrest' hrests).result,
      (hfg a rest rest' hrest hrest' hrests).rest⟩
  | error he => exact ⟨.error he, hrests⟩

end Readings

/-! ## Readers keep the likeness -/

section Readers

variable {c d : Cursor}

theorem expect (h : x.Cursors c d) (kind : Kind) (expected : String) :
    x.Readings (c.expect kind expected) (d.expect kind expected) := by
  unfold Cursor.expect
  rw [h.kind_eq]
  apply Readings.behindNext
  split
  · exact .ok h.advance ()
  · exact .error h.advance (h.unexpected _)

theorem ident (h : x.Cursors c d) : x.Readings (Ident.read c) (Ident.read d) := by
  unfold Ident.read
  rw [h.kind_eq]
  apply Readings.behindNext
  split
  · rename_i hname
    rw [x.name_eq h.peek hname]
    exact .ok h.advance _
  · exact .error h.advance (h.unexpected _)

theorem readNumber (h : x.Cursors c d) (hkind : c.peek.kind = .number ∨ c.peek.kind = .lineNumber) :
    x.Readings (Expr.readNumber c.peek c.advance) (Expr.readNumber d.peek d.advance) := by
  have heq : Expr.ofNumber? d.peek = Expr.ofNumber? c.peek := by
    rw [Expr.ofNumber?, Expr.ofNumber?, x.text_eq h.peek (.inr hkind)]
  unfold Expr.readNumber
  rw [heq]
  split
  · exact .ok h.advance _
  · exact .error h.advance (h.syntaxError fun t => "invalid number " ++ t.describe)

-- The recursion is that of the readers of expressions, and ends for the same reason.
mutual

theorem readAt (least : Nat) (c d : Cursor) (h : x.Cursors c d) :
    x.Readings (Expr.readAt least c) (Expr.readAt least d) := by
  rw [Expr.readAt, Expr.readAt]
  apply (readOperand c d h).andThen
  intro left c' d' hc' _ h'
  exact readMore least left c' d' h'
termination_by 3 * c.size + 2

theorem readMore (least : Nat) (left : Expr) (c d : Cursor) (h : x.Cursors c d) :
    x.Readings (Expr.readMore least left c) (Expr.readMore least left d) := by
  rw [Expr.readMore_eq, Expr.readMore_eq, h.kind_eq]
  split
  · rename_i op hop
    have hsize := Cursor.size_advance_lt (c := c) (by simp [hop])
    split
    · exact .ok h left
    · apply Readings.behindNext
      apply (readAt op.rightPrecedence c.advance d.advance h.advance).andThen
      intro right c' d' hc' _ h'
      exact readMore least (.binary op left right) c' d' h'
  · exact .ok h left
termination_by 3 * c.size + 1

theorem readOperand (c d : Cursor) (h : x.Cursors c d) :
    x.Readings (Expr.readOperand c) (Expr.readOperand d) := by
  rw [Expr.readOperand_eq, Expr.readOperand_eq, h.kind_eq, h.advance.kind_eq,
    h.advance.advance.kind_eq]
  apply Readings.behindNext
  split
  · rename_i hkind
    have hsize := Cursor.size_advance_lt (c := c) (by simp [hkind])
    exact (readAt Expr.signPrecedence c.advance d.advance h.advance).map _
  · rename_i hkind
    have hsize := Cursor.size_advance_lt (c := c) (by simp [hkind])
    exact readAt Expr.signPrecedence c.advance d.advance h.advance
  · rename_i hkind
    have hsize := Cursor.size_advance_lt (c := c) (by simp [hkind])
    apply (readAt 0 c.advance d.advance h.advance).andThen
    intro e c' d' _ _ h'
    exact (expect h' .rightParen "')'").map _
  · rename_i hkind
    exact readNumber h (.inl hkind)
  · rename_i hkind
    exact readNumber h (.inr hkind)
  · rename_i hkind
    rw [x.text_eq h.peek (.inl hkind)]
    exact .ok h.advance _
  · rename_i hkind
    have hsize := Cursor.size_advance_lt (c := c) (by simp [hkind])
    have hsize' := c.advance.size_advance_le
    rw [x.name_eq h.peek hkind]
    split
    · apply Readings.behindNext
      split
      · exact .behindNext (.ok h.advance.advance.advance _)
      · exact (readArguments c.advance.advance d.advance.advance h.advance.advance).map _
    · exact .ok h.advance _
  · exact .error h.advance (h.unexpected _)
termination_by 3 * c.size + 1

theorem readArguments (c d : Cursor) (h : x.Cursors c d) :
    x.Readings (Expr.readArguments c) (Expr.readArguments d) := by
  rw [Expr.readArguments_eq, Expr.readArguments_eq]
  apply (readAt 0 c d h).andThen
  intro e c' d' hc' _ h'
  rw [h'.kind_eq]
  split
  · exact .behindNext (.ok h'.advance _)
  · rename_i hkind
    have hsize := Cursor.size_advance_lt (c := c') (by simp [hkind])
    exact .behindNext ((readArguments c'.advance d'.advance h'.advance).map _)
  · exact .behindNext (.error h'.advance (h'.unexpected _))
termination_by 3 * c.size + 3

end

theorem expr (h : x.Cursors c d) : x.Readings (Expr.read c) (Expr.read d) :=
  readAt 0 c d h

theorem readItems (line : Nat) (c d : Cursor) (h : x.Cursors c d) :
    x.Readings (Statement.readItems line c) (Statement.readItems line d) := by
  rw [Statement.readItems_eq, Statement.readItems_eq]
  apply (expr h).andThen
  intro e c' d' hc' _ h'
  rw [h'.kind_eq, h'.advance.atEndOfStatement_eq]
  split
  · rename_i hkind
    have hsize :=
      Cursor.size_advance_lt (c := c') (by rcases hkind with hkind | hkind <;> simp [hkind])
    apply Readings.behindNext
    split
    · exact .ok h'.advance _
    · exact (readItems line c'.advance d'.advance h'.advance).map _
  · exact .ok h' _
termination_by c.size

theorem readPrint (h : x.Cursors c d) (line : Nat) :
    x.Readings (Statement.readPrint line c) (Statement.readPrint line d) := by
  unfold Statement.readPrint
  rw [h.atEndOfStatement_eq]
  split
  · exact .ok h _
  · exact (readItems line c d h).map _

theorem readAssign (h : x.Cursors c d) :
    x.Readings (Statement.readAssign c) (Statement.readAssign d) := by
  apply (ident h).andThen
  intro v c₁ d₁ _ _ h₁
  apply (expect h₁ _ _).andThen
  intro _ c₂ d₂ _ _ h₂
  exact (expr h₂).map _

theorem readPromptEnd (h : x.Cursors c d) :
    x.Readings (Statement.readPromptEnd c) (Statement.readPromptEnd d) := by
  unfold Statement.readPromptEnd
  rw [h.kind_eq]
  apply Readings.behindNext
  split
  · exact .ok h.advance ()
  · exact .error h.advance (h.syntaxError fun t =>
      "expected ';' after prompt, found " ++ t.describe)

theorem readInput (h : x.Cursors c d) :
    x.Readings (Statement.readInput c) (Statement.readInput d) := by
  unfold Statement.readInput
  rw [h.kind_eq]
  split
  · rename_i hstring
    rw [x.text_eq h.peek (.inl hstring)]
    apply Readings.behindNext
    apply (readPromptEnd h.advance).andThen
    intro _ c₁ d₁ _ _ h₁
    exact (ident h₁).map _
  · exact (ident h).map _

theorem toLineNumber {t u : Token} (h : x.token t u)
    (hkind : t.kind = .number ∨ t.kind = .lineNumber) :
    x.Results t.toLineNumber u.toLineNumber := by
  unfold Token.toLineNumber
  rw [x.text_eq h (.inr hkind)]
  split
  · exact .ok _
  · exact .error (x.error_of_token h (.inr (.inl rfl)) fun _ => _)

theorem readGoto (h : x.Cursors c d) :
    x.Readings (Statement.readGoto c) (Statement.readGoto d) := by
  unfold Statement.readGoto
  rw [h.kind_eq]
  apply Readings.behindNext
  split
  · rename_i hkind
    have hresult := toLineNumber h.peek hkind
    generalize c.peek.toLineNumber = r, d.peek.toLineNumber = s at hresult ⊢
    cases hresult with
    | ok n => exact .ok h.advance _
    | error he => exact .error h.advance he
  · exact .error h.advance (h.unexpected _)

theorem readStep (h : x.Cursors c d) :
    x.Readings (Statement.readStep c) (Statement.readStep d) := by
  unfold Statement.readStep
  rw [h.kind_eq]
  split
  · exact .behindNext (expr h.advance)
  · exact .ok h _

theorem readLoop (h : x.Cursors c d) (number : Nat) :
    x.Readings (Statement.readLoop number c) (Statement.readLoop number d) := by
  apply (ident h).andThen
  intro v c₁ d₁ _ _ h₁
  apply (expect h₁ _ _).andThen
  intro _ c₂ d₂ _ _ h₂
  apply (expr h₂).andThen
  intro start c₃ d₃ _ _ h₃
  apply (expect h₃ _ _).andThen
  intro _ c₄ d₄ _ _ h₄
  apply (expr h₄).andThen
  intro limit c₅ d₅ _ _ h₅
  exact (readStep h₅).map _

theorem readNext (h : x.Cursors c d) (line : Nat) :
    x.Readings (Statement.readNext line c) (Statement.readNext line d) := by
  unfold Statement.readNext
  rw [h.kind_eq, h.atEndOfStatement_eq]
  split
  · exact (ident h).map _
  · exact .ok h _

theorem readRemark (h : x.Cursors c d) (line : Nat) :
    x.Readings (Statement.readRemark line c) (Statement.readRemark line d) := by
  unfold Statement.readRemark
  rw [h.kind_eq, h.atEndOfStatement_eq]
  split
  · rename_i hstring
    rw [x.text_eq h.peek (.inl hstring.1)]
    exact .behindNext (.ok h.advance _)
  · exact .ok h _

theorem statement (line number : Nat) (c d : Cursor) (h : x.Cursors c d) :
    x.Readings (Statement.read line number c) (Statement.read line number d) := by
  rw [Statement.read_eq, Statement.read_eq, h.kind_eq]
  split
  · exact readAssign h
  · rename_i k hk
    have hsize := Cursor.size_advance_lt (c := c) (by simp [hk])
    apply Readings.behindNext
    cases k with
    | END => exact .ok h.advance _
    | FOR => exact readLoop h.advance number
    | GOTO => exact readGoto h.advance
    | IF =>
      unfold Statement.readBehind
      apply (expr h.advance).andThen
      intro condition c₁ d₁ hc₁ _ h₁
      apply (expect h₁ _ _).andThen
      intro _ c₂ d₂ hc₂ _ h₂
      rw [h₂.kind_eq]
      split
      · exact (readGoto h₂).map _
      · exact (statement line number c₂ d₂ h₂).map _
    | INPUT => exact readInput h.advance
    | LET => exact readAssign h.advance
    | NEXT => exact readNext h.advance line
    | PRINT => exact readPrint h.advance line
    | REM => exact readRemark h.advance line
    | STEP | THEN | TO => exact .error h.advance (h.syntaxError fun _ => _)
  · exact .error h (h.unexpected _)
termination_by c.size

end Readers

/-! ## Programs -/

/-- A line that is turned away is an error of the place where its number stands. -/
theorem insert_atPosition {t u : Token} (h : x.token t u) {p : Program} {n : Nat} {st : Statement}
    {e : Error} (he : (Program.insert n st p).1 = .error e) :
    x.error (e.atPosition t.position) (e.atPosition u.position) := by
  obtain ⟨code, detail, hcode, rfl⟩ := Program.exists_eq_because_of_insert he
  exact x.error_of_token h hcode fun _ => detail

theorem insertThen {c d : Cursor} (h : x.Cursors c d) {t u : Token} (ht : x.token t u)
    (hend : t.kind ≠ .endOfInput) {next : Program → Reading Program c}
    {next' : Program → Reading Program d} (hnext : ∀ q, x.Readings (next q) (next' q))
    (p : Program) (n : Nat) (st : Statement) :
    x.Readings (p.insertThen t n st c next) (p.insertThen u n st d next') := by
  unfold Program.insertThen
  rw [x.line_eq ht hend, h.atEndOfStatement_eq]
  split
  · rcases hinsert : Program.insert n st p with ⟨e | _, q⟩
    · exact .error h (insert_atPosition ht (congrArg Prod.fst hinsert))
    · exact hnext q
  · exact .error h (h.syntaxError fun t => "unexpected " ++ t.describe)

theorem readLineThen {c d : Cursor} (h : x.Cursors c d) {t u : Token} (ht : x.token t u)
    (hkind : t.kind = .number ∨ t.kind = .lineNumber)
    {next : Program → (c' : Cursor) → c'.size ≤ c.size → Reading Program c'}
    {next' : Program → (d' : Cursor) → d'.size ≤ d.size → Reading Program d'}
    (hnext : ∀ q c' d' hc' hd', x.Cursors c' d' → x.Readings (next q c' hc') (next' q d' hd'))
    (p : Program) : x.Readings (p.readLineThen t c next) (p.readLineThen u d next') := by
  have hend : t.kind ≠ .endOfInput := by rcases hkind with hkind | hkind <;> simp [hkind]
  have hnumber := toLineNumber ht hkind
  unfold Program.readLineThen
  rw [x.line_eq ht hend]
  generalize t.toLineNumber = a, u.toLineNumber = b at hnumber ⊢
  cases hnumber with
  | error he => exact .error h he
  | ok n =>
    apply (statement t.line n c d h).andThen
    intro st c' d' hc' hd' h'
    exact insertThen h' ht hend (fun q => hnext q c' d' hc' hd' h') p n st

theorem program (p : Program) (c d : Cursor) (h : x.Cursors c d) :
    x.Readings (p.read c) (p.read d) := by
  have hnext (hend : c.peek.kind ≠ .endOfInput) (q : Program) (c' d' : Cursor)
      (hc' : c'.size ≤ c.advance.size)
      (_ : d'.size ≤ d.advance.size) (h' : x.Cursors c' d') : x.Readings (q.read c') (q.read d') :=
    have := Cursor.size_advance_lt hend
    program q c' d' h'
  rw [Program.read_eq, Program.read_eq, h.kind_eq]
  split
  · exact .ok h p
  · rename_i hkind
    exact .behindNext (readLineThen h.advance h.peek (.inr hkind) (hnext (by simp [hkind])) p)
  · rename_i hkind
    exact .behindNext (readLineThen h.advance h.peek (.inl hkind) (hnext (by simp [hkind])) p)
  · exact .behindNext (.error h.advance (h.unexpected _))
termination_by c.size

theorem find?_illegal {ts us : List Token} (h : List.Forall₂ x.token ts us) :
    Option.Rel x.token (ts.find? (·.kind = .illegal)) (us.find? (·.kind = .illegal)) := by
  induction h with
  | nil => exact .none
  | cons ht _ ih =>
    rw [List.find?_cons, List.find?_cons, x.kind_eq ht]
    split
    · exact .some ht
    · exact ih

/-- From lists of tokens that are related up to their first end tokens, and have related illegal
tokens, the same program is read, or errors that are related are met. -/
theorem ofTokens {ts us : List Token} (h : x.Cursors (.ofTokens ts) (.ofTokens us))
    (hfind : Option.Rel x.token (ts.find? (·.kind = .illegal)) (us.find? (·.kind = .illegal))) :
    x.Results (Program.ofTokens ts) (Program.ofTokens us) := by
  have hkind (t : Token) (ht : ts.find? (·.kind = .illegal) = some t) : t.kind = .illegal := by
    simpa using List.find?_some ht
  unfold Program.ofTokens
  generalize ts.find? (·.kind = .illegal) = a, us.find? (·.kind = .illegal) = b at hfind hkind ⊢
  cases hfind with
  | none => exact (program .empty _ _ h).result
  | some htu => exact .error (x.illegalError htu (hkind _ rfl))

/-- From sources with related tokens the same program is read, or errors that are related are
met. -/
theorem ofSource {source source' : String}
    (h : List.Forall₂ x.token (Token.scan source) (Token.scan source')) :
    x.Results (Program.ofSource source) (Program.ofSource source') := by
  obtain ⟨hscan, -⟩ := Token.exists_scan_eq source
  obtain ⟨hscan', -⟩ := Token.exists_scan_eq source'
  refine ofTokens ?_ (find?_illegal h)
  have hreverse := List.forall₂_reverse_iff.mpr h
  rw [hscan, hscan', List.reverse_concat, List.reverse_concat, List.forall₂_cons,
    List.forall₂_reverse_iff] at hreverse
  rw [hscan, hscan']
  -- The end tokens are the last ones, and what is behind them does not matter.
  exact Cursors.prepend (c := ⟨[_], _⟩) (d := ⟨[_], _⟩) (.stop rfl hreverse.1) hreverse.2

end Likeness

end LineBasic
