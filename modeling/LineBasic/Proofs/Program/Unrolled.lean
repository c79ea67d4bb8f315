import LineBasic.Proofs.Statement.Likeness
import Mathlib.Logic.Function.Iterate

/-!
# Reading comes to an end

Readers call each other, and at an end token none of them takes a token, so that calls could follow
each other without end. They do not, because at most three of them follow each other before one
takes a token or none is left to make. `Readers.round` is one round of calls: what each reader does,
with given readers in the place of those that it calls. Rounds that begin with any readers come to
agree with the readers of the language, and three rounds for each token that is left and three more
are enough for a program (`Readers.agree_iterate_round`). What the rounds began with makes no
difference then, not even if it fails with an error of its own, which would be passed on. So it is
never called.
-/

namespace LineBasic

theorem Reading.andThen_congr {α β : Type} {c : Cursor} {r s : Reading α c} (h : r = s)
    {f g : α → (d : Cursor) → d.size ≤ c.size → Reading β d} (hfg : ∀ a d hd, f a d hd = g a d hd) :
    r.andThen f = s.andThen g := by
  rw [h, funext₃ hfg]

/-- Readers for all that takes a call to another reader to be read. -/
@[ext] structure Readers where
  readAt (least : Nat) (c : Cursor) : Reading Expr c
  readMore (least : Nat) (left : Expr) (c : Cursor) : Reading Expr c
  readOperand (c : Cursor) : Reading Expr c
  readArguments (c : Cursor) : Reading (List Expr) c
  readItems (line : Nat) (c : Cursor) : Reading (List Expr) c
  readStatement (line number : Nat) (c : Cursor) : Reading Statement c
  readProgram (p : Program) (c : Cursor) : Reading Program c

namespace Readers

/-- The readers of the language. -/
def ofLanguage : Readers where
  readAt := Expr.readAt
  readMore := Expr.readMore
  readOperand := Expr.readOperand
  readArguments := Expr.readArguments
  readItems := Statement.readItems
  readStatement := Statement.read
  readProgram := Program.read

/-! ## One round of calls -/

section Round

variable (r : Readers)

/-- What stands behind `LET`. -/
def readAssign (c : Cursor) : Reading Statement c :=
  (Ident.read c).andThen fun v d _ =>
    d.expectEqual.andThen fun _ d _ =>
      (r.readAt 0 d).map (.assign v)

/-- What stands behind `PRINT`. -/
def readPrint (line : Nat) (c : Cursor) : Reading Statement c :=
  if c.atEndOfStatement line then .ok (.print [])
  else (r.readItems line c).map .print

/-- The step of a loop. -/
def readStep (c : Cursor) : Reading Expr c :=
  if c.peek.kind = .keyword .STEP then Reading.behindNext <| r.readAt 0 c.advance
  else .ok (.number 1)

/-- What stands behind `FOR`. -/
def readLoop (number : Nat) (c : Cursor) : Reading Statement c :=
  (Ident.read c).andThen fun v d _ =>
    d.expectEqual.andThen fun _ d _ =>
      (r.readAt 0 d).andThen fun start d _ =>
        (d.expectKeyword .TO).andThen fun _ d _ =>
          (r.readAt 0 d).andThen fun limit d _ =>
            (r.readStep d).map fun step => .loop v start limit step number

/-- What stands behind `IF`. -/
def readCond (line number : Nat) (c : Cursor) : Reading Statement c :=
  (r.readAt 0 c).andThen fun condition d _ =>
    (d.expectKeyword .THEN).andThen fun _ d _ =>
      if d.peek.kind = .number then (Statement.readGoto d).map (.cond condition)
      else (r.readStatement line number d).map (.cond condition)

/-- What stands behind a keyword. -/
def readBehind (line number : Nat) (t : Token) (k : Keyword) (c : Cursor) : Reading Statement c :=
  match k with
  | .FOR => r.readLoop number c
  | .IF => r.readCond line number c
  | .LET => r.readAssign c
  | .PRINT => r.readPrint line c
  | _ => Statement.readBehind line number t k c

/-- What each reader does, with the given readers in the place of those that it calls. -/
def round : Readers where
  readAt least c := (r.readOperand c).andThen fun left d _ => r.readMore least left d
  readMore least left c := match c.peek.kind with
    | .operator op =>
      if op.precedence < least then .ok left
      else
        Reading.behindNext <|
          (r.readAt op.rightPrecedence c.advance).andThen fun right d _ =>
            r.readMore least (.binary op left right) d
    | _ => .ok left
  readOperand c := Reading.behindNext <| match c.peek.kind with
    | .operator .subtract =>
      (r.readAt Expr.signPrecedence c.advance).map (.binary .subtract (.number 0))
    | .operator .add => r.readAt Expr.signPrecedence c.advance
    | .leftParen =>
      (r.readAt 0 c.advance).andThen fun e d _ => (d.expect .rightParen "')'").map fun _ => .paren e
    | .number | .lineNumber => Expr.readNumber c.peek c.advance
    | .string => .ok (.text c.peek.text)
    | .name =>
      if c.advance.peek.kind = .leftParen then
        Reading.behindNext <|
          if c.advance.advance.peek.kind = .rightParen then
            Reading.behindNext <| .ok (.call (.ofText c.peek.text) [])
          else (r.readArguments c.advance.advance).map (.call (.ofText c.peek.text))
      else .ok (Expr.ofName (.ofText c.peek.text))
    | _ => .error (c.peek.unexpected "expression")
  readArguments c := (r.readAt 0 c).andThen fun e d _ => match d.peek.kind with
    | .rightParen => Reading.behindNext <| .ok [e]
    | .comma => Reading.behindNext <| (r.readArguments d.advance).map (e :: ·)
    | _ => Reading.behindNext <| .error (d.peek.unexpected "',' or ')'")
  readItems line c := (r.readAt 0 c).andThen fun e d _ =>
    if d.peek.kind = .comma ∨ d.peek.kind = .semicolon then
      Reading.behindNext <|
        if d.advance.atEndOfStatement line then .ok [e]
        else (r.readItems line d.advance).map (e :: ·)
    else .ok [e]
  readStatement line number c := match c.peek.kind with
    | .name => r.readAssign c
    | .keyword k => Reading.behindNext (r.readBehind line number c.peek k c.advance)
    | _ => .error (c.peek.unexpected "statement")
  readProgram p c := match c.peek.kind with
    | .endOfInput => .ok p
    | .lineNumber | .number => Reading.behindNext <| match c.peek.toLineNumber with
      | .error e => .error e
      | .ok n =>
        (r.readStatement c.peek.line n c.advance).andThen fun statement d _ =>
          p.insertThen c.peek n statement d fun q => r.readProgram q d
    | _ => Reading.behindNext <| .error (c.peek.unexpected "line number")

end Round

theorem readBehind_ofLanguage (line number : Nat) (t : Token) (k : Keyword) (c : Cursor) :
    ofLanguage.readBehind line number t k c = Statement.readBehind line number t k c := by
  cases k <;> rfl

/-- The readers of the language do what they do by calling each other. -/
theorem round_ofLanguage : ofLanguage.round = ofLanguage := by
  ext1
  · exact funext₂ fun least c => (Expr.readAt.eq_1 least c).symm
  · exact funext₃ fun least left c => (Expr.readMore_eq least left c).symm
  · exact funext fun c => (Expr.readOperand_eq c).symm
  · exact funext fun c => (Expr.readArguments_eq c).symm
  · exact funext₂ fun line c => (Statement.readItems_eq line c).symm
  · refine funext₃ fun line number c => ?_
    simp only [round, readBehind_ofLanguage]
    exact (Statement.read_eq line number c).symm
  · exact funext₂ fun p c => (Program.read_eq p c).symm

/-! ## Rounds enough -/

/-- Readers agree where so many rounds of calls are enough. -/
structure Agree (n : Nat) (r s : Readers) : Prop where
  readMore : ∀ least left c, 3 * c.size + 1 ≤ n → r.readMore least left c = s.readMore least left c
  readOperand : ∀ c, 3 * c.size + 1 ≤ n → r.readOperand c = s.readOperand c
  readAt : ∀ least c, 3 * c.size + 2 ≤ n → r.readAt least c = s.readAt least c
  readArguments : ∀ c, 3 * c.size + 3 ≤ n → r.readArguments c = s.readArguments c
  readItems : ∀ line c, 3 * c.size + 3 ≤ n → r.readItems line c = s.readItems line c
  readStatement : ∀ line number c, 3 * c.size + 3 ≤ n →
    r.readStatement line number c = s.readStatement line number c
  readProgram : ∀ p c, 3 * c.size + 3 ≤ n → r.readProgram p c = s.readProgram p c

namespace Agree

variable {n : Nat} {r s : Readers}

theorem round_readAt (h : Agree n r s) (least : Nat) (c : Cursor) (hc : 3 * c.size + 1 ≤ n) :
    r.round.readAt least c = s.round.readAt least c := by
  simp only [round]
  apply Reading.andThen_congr (h.readOperand c hc)
  intro left d hd
  exact h.readMore _ _ _ (by omega)

theorem round_readMore (h : Agree n r s) (least : Nat) (left : Expr) (c : Cursor)
    (hc : 3 * c.size ≤ n) : r.round.readMore least left c = s.round.readMore least left c := by
  simp only [round]
  split
  · rename_i op hop
    have hsize := Cursor.size_advance_lt (c := c) (by simp [hop])
    split
    · rfl
    · apply congrArg Reading.behindNext
      apply Reading.andThen_congr (h.readAt _ _ (by omega))
      intro right d hd
      exact h.readMore _ _ _ (by omega)
  · rfl

theorem round_readOperand (h : Agree n r s) (c : Cursor) (hc : 3 * c.size ≤ n) :
    r.round.readOperand c = s.round.readOperand c := by
  have hadvance (hend : c.peek.kind ≠ .endOfInput) (least : Nat) : r.readAt least c.advance =
      s.readAt least c.advance :=
    have := Cursor.size_advance_lt hend
    h.readAt least c.advance (by omega)
  simp only [round]
  apply congrArg Reading.behindNext
  split
  · rename_i hkind
    rw [hadvance (by simp [hkind])]
  · rename_i hkind
    exact hadvance (by simp [hkind]) _
  · rename_i hkind
    rw [hadvance (by simp [hkind])]
  · rfl
  · rfl
  · rfl
  · rename_i hkind
    have hsize := Cursor.size_advance_lt (c := c) (by simp [hkind])
    have hsize' := c.advance.size_advance_le
    rw [h.readArguments _ (by omega)]
  · rfl

theorem round_readArguments (h : Agree n r s) (c : Cursor) (hc : 3 * c.size + 2 ≤ n) :
    r.round.readArguments c = s.round.readArguments c := by
  simp only [round]
  apply Reading.andThen_congr (h.readAt _ _ hc)
  intro e d hd
  split
  · rfl
  · rename_i hkind
    have hsize := Cursor.size_advance_lt (c := d) (by simp [hkind])
    rw [h.readArguments _ (by omega)]
  · rfl

theorem round_readItems (h : Agree n r s) (line : Nat) (c : Cursor) (hc : 3 * c.size + 2 ≤ n) :
    r.round.readItems line c = s.round.readItems line c := by
  simp only [round]
  apply Reading.andThen_congr (h.readAt _ _ hc)
  intro e d hd
  split
  · rename_i hkind
    have hsize :=
      Cursor.size_advance_lt (c := d) (by rcases hkind with hkind | hkind <;> simp [hkind])
    rw [h.readItems _ _ (by omega)]
  · rfl

theorem readAssign (h : Agree n r s) (c : Cursor) (hc : 3 * c.size + 2 ≤ n) :
    r.readAssign c = s.readAssign c := by
  apply Reading.andThen_congr rfl
  intro v d hd
  apply Reading.andThen_congr rfl
  intro _ d' hd'
  rw [h.readAt _ _ (by omega)]

theorem readStep (h : Agree n r s) (c : Cursor) (hc : 3 * c.size + 2 ≤ n) :
    r.readStep c = s.readStep c := by
  have hsize := c.size_advance_le
  unfold Readers.readStep
  rw [h.readAt _ _ (by omega)]

theorem readLoop (h : Agree n r s) (number : Nat) (c : Cursor) (hc : 3 * c.size + 2 ≤ n) :
    r.readLoop number c = s.readLoop number c := by
  apply Reading.andThen_congr rfl
  intro v d₁ hd₁
  apply Reading.andThen_congr rfl
  intro _ d₂ hd₂
  apply Reading.andThen_congr (h.readAt _ _ (by omega))
  intro start d₃ hd₃
  apply Reading.andThen_congr rfl
  intro _ d₄ hd₄
  apply Reading.andThen_congr (h.readAt _ _ (by omega))
  intro limit d₅ hd₅
  rw [h.readStep _ (by omega)]

theorem readCond (h : Agree n r s) (line number : Nat) (c : Cursor) (hc : 3 * c.size + 3 ≤ n) :
    r.readCond line number c = s.readCond line number c := by
  apply Reading.andThen_congr (h.readAt _ _ (by omega))
  intro condition d₁ hd₁
  apply Reading.andThen_congr rfl
  intro _ d₂ hd₂
  rw [h.readStatement _ _ _ (by omega)]

theorem readBehind (h : Agree n r s) (line number : Nat) (t : Token) (k : Keyword) (c : Cursor)
    (hc : 3 * c.size + 3 ≤ n) :
    r.readBehind line number t k c = s.readBehind line number t k c := by
  unfold Readers.readBehind
  split
  · exact h.readLoop number c (by omega)
  · exact h.readCond line number c hc
  · exact h.readAssign c (by omega)
  · unfold Readers.readPrint
    rw [h.readItems _ _ hc]
  · rfl

theorem round_readStatement (h : Agree n r s) (line number : Nat) (c : Cursor)
    (hc : 3 * c.size + 2 ≤ n) :
    r.round.readStatement line number c = s.round.readStatement line number c := by
  simp only [round]
  split
  · exact h.readAssign c hc
  · rename_i k hk
    have hsize := Cursor.size_advance_lt (c := c) (by simp [hk])
    rw [h.readBehind _ _ _ _ _ (by omega)]
  · rfl

theorem round_readProgram (h : Agree n r s) (p : Program) (c : Cursor) (hc : 3 * c.size + 2 ≤ n) :
    r.round.readProgram p c = s.round.readProgram p c := by
  have hline (hend : c.peek.kind ≠ .endOfInput) (n : Nat) :
      (r.readStatement c.peek.line n c.advance).andThen (fun statement d _ =>
        p.insertThen c.peek n statement d fun q => r.readProgram q d) =
      (s.readStatement c.peek.line n c.advance).andThen (fun statement d _ =>
        p.insertThen c.peek n statement d fun q => s.readProgram q d) := by
    have hsize := Cursor.size_advance_lt hend
    apply Reading.andThen_congr (h.readStatement _ _ _ (by omega))
    intro statement d hd
    rw [funext fun q => h.readProgram q d (by omega)]
  simp only [round]
  split
  · rfl
  · rename_i hkind
    simp only [hline (by simp [hkind])]
  · rename_i hkind
    simp only [hline (by simp [hkind])]
  · rfl

/-- One more round is enough for what takes one more. -/
theorem round (h : Agree n r s) : Agree (n + 1) r.round s.round where
  readMore least left c hc := h.round_readMore least left c (by omega)
  readOperand c hc := h.round_readOperand c (by omega)
  readAt least c hc := h.round_readAt least c (by omega)
  readArguments c hc := h.round_readArguments c (by omega)
  readItems line c hc := h.round_readItems line c (by omega)
  readStatement line number c hc := h.round_readStatement line number c (by omega)
  readProgram p c hc := h.round_readProgram p c (by omega)

end Agree

/-- Rounds of calls that begin with any readers come to agree with the readers of the language. -/
theorem agree_iterate_round (r : Readers) (n : Nat) : Agree n (round^[n] r) ofLanguage := by
  induction n with
  | zero => constructor <;> intros <;> omega
  | succ n ih =>
    rw [Function.iterate_succ_apply', ← round_ofLanguage]
    exact ih.round

end Readers

end LineBasic
