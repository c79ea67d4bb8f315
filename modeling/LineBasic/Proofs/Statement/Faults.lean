import LineBasic.Proofs.Statement.Likeness

/-!
# What reading blames

A text that cannot be read as a program has a token to blame. `Token.Fault` lists the errors that a
token can be blamed for, with what it takes for each of them. Readers go along the tokens before
them: they stop at one that is reached by going on, and if they fail they blame such a one
(`Expr.read_along`, `Statement.read_along`, `Program.read_along`). So they blame no token but those
before them, and the end of the source (`Expr.blames`, `Statement.blames`,
`Program.exists_fault_of_ofTokens`).
-/

namespace LineBasic

/-- The errors that a token can be blamed for. -/
inductive Token.Fault (t : Token) : Error → Prop
  | illegal (hkind : t.kind = .illegal) : t.Fault t.illegalError
  | expected (what : String) : t.Fault (t.syntaxError ("expected " ++ what))
  | unexpected : t.Fault (t.syntaxError ("unexpected " ++ t.describe))
  | number (hkind : t.kind = .number ∨ t.kind = .lineNumber) (hvalue : Expr.ofNumber? t = none) :
      t.Fault (t.syntaxError ("invalid number " ++ t.describe))
  | lineNumber {e : Error} (h : t.toLineNumber = .error e) : t.Fault e
  | insert {p : Program} {n : Nat} {st : Statement} {e : Error}
      (h : (Program.insert n st p).1 = .error e) :
      t.Fault (e.atPosition t.position)

theorem Token.fault_unexpected (t : Token) (what : String) : t.Fault (t.unexpected what) := by
  rw [unexpected, String.append_assoc, String.append_assoc]
  exact .expected _

/-- A reading goes along the tokens from a cursor on: it stops at a token that is reached from
there, and blames such a token if it fails. -/
structure Reading.Along (o : Cursor) {α : Type} {c : Cursor} (r : Reading α c) : Prop where
  rest : o.Reaches r.rest
  error : ∀ e, r.result = .error e → ∃ d, o.Reaches d ∧ d.peek.Fault e

namespace Reading.Along

variable {α β : Type} {o c : Cursor}

theorem ok (h : o.Reaches c) (a : α) : (Reading.ok a : Reading α c).Along o :=
  ⟨h, fun _ he => nomatch he⟩

theorem fail (h : o.Reaches c) {d : Cursor} {e : Error} (hd : o.Reaches d) (he : d.peek.Fault e) :
    (Reading.error e : Reading α c).Along o := by
  refine ⟨h, fun e' he' => ?_⟩
  cases he'
  exact ⟨d, hd, he⟩

theorem behindNext {r : Reading α c.advance} (h : r.Along o) : r.behindNext.Along o :=
  ⟨h.rest, h.error⟩

theorem map {r : Reading α c} (h : r.Along o) (f : α → β) : (r.map f).Along o := by
  obtain ⟨result, rest, hrest⟩ := r
  refine ⟨h.rest, fun e he => ?_⟩
  cases result with
  | ok a => cases he
  | error e' =>
    cases he
    exact h.error e rfl

theorem andThen {r : Reading α c} (h : r.Along o)
    {f : α → (d : Cursor) → d.size ≤ c.size → Reading β d}
    (hf : ∀ a d hd, o.Reaches d → (f a d hd).Along o) : (r.andThen f).Along o := by
  obtain ⟨result, rest, hrest⟩ := r
  cases result with
  | ok a => exact ⟨(hf a rest hrest h.rest).rest, (hf a rest hrest h.rest).error⟩
  | error e => exact ⟨h.rest, fun e' he' => h.error e' (by cases he'; rfl)⟩

end Reading.Along

open Reading

/-! ## Expressions -/

section Readers

variable {o c : Cursor}

theorem Cursor.Reaches.expect (h : o.Reaches c) (kind : Kind) (what : String) :
    (c.expect kind what).Along o := by
  unfold Cursor.expect
  apply Along.behindNext
  split
  · exact .ok h.advance ()
  · exact .fail h.advance h (c.peek.fault_unexpected what)

theorem Ident.read_along (h : o.Reaches c) : (Ident.read c).Along o := by
  unfold Ident.read
  apply Along.behindNext
  split
  · exact .ok h.advance _
  · exact .fail h.advance h (c.peek.fault_unexpected _)

namespace Expr

theorem readNumber_along (h : o.Reaches c)
    (hkind : c.peek.kind = .number ∨ c.peek.kind = .lineNumber) :
    (readNumber c.peek c.advance).Along o := by
  unfold readNumber
  split
  · exact .ok h.advance _
  · rename_i hvalue
    exact .fail h.advance h (.number hkind hvalue)

-- The recursion is that of the readers of expressions, and ends for the same reason.
mutual

theorem readAt_along (least : Nat) (c : Cursor) (h : o.Reaches c) : (readAt least c).Along o := by
  rw [readAt]
  apply (readOperand_along c h).andThen
  intro left d hd hreaches
  exact readMore_along least left d hreaches
termination_by 3 * c.size + 2

theorem readMore_along (least : Nat) (left : Expr) (c : Cursor) (h : o.Reaches c) :
    (readMore least left c).Along o := by
  rw [readMore_eq]
  split
  · rename_i op hop
    have hsize := Cursor.size_advance_lt (c := c) (by simp [hop])
    split
    · exact .ok h left
    · apply Along.behindNext
      apply (readAt_along op.rightPrecedence c.advance h.advance).andThen
      intro right d hd hreaches
      exact readMore_along least (.binary op left right) d hreaches
  · exact .ok h left
termination_by 3 * c.size + 1

theorem readOperand_along (c : Cursor) (h : o.Reaches c) : (readOperand c).Along o := by
  rw [readOperand_eq]
  apply Along.behindNext
  split
  · rename_i hkind
    have hsize := Cursor.size_advance_lt (c := c) (by simp [hkind])
    exact (readAt_along signPrecedence c.advance h.advance).map _
  · rename_i hkind
    have hsize := Cursor.size_advance_lt (c := c) (by simp [hkind])
    exact readAt_along signPrecedence c.advance h.advance
  · rename_i hkind
    have hsize := Cursor.size_advance_lt (c := c) (by simp [hkind])
    apply (readAt_along 0 c.advance h.advance).andThen
    intro e d hd hreaches
    exact (hreaches.expect .rightParen "')'").map _
  · rename_i hkind
    exact readNumber_along h (.inl hkind)
  · rename_i hkind
    exact readNumber_along h (.inr hkind)
  · exact .ok h.advance _
  · rename_i hkind
    have hsize := Cursor.size_advance_lt (c := c) (by simp [hkind])
    have hsize' := c.advance.size_advance_le
    split
    · apply Along.behindNext
      split
      · exact .behindNext (.ok h.advance.advance.advance _)
      · exact (readArguments_along c.advance.advance h.advance.advance).map _
    · exact .ok h.advance _
  · exact .fail h.advance h (c.peek.fault_unexpected _)
termination_by 3 * c.size + 1

theorem readArguments_along (c : Cursor) (h : o.Reaches c) : (readArguments c).Along o := by
  rw [readArguments_eq]
  apply (readAt_along 0 c h).andThen
  intro e d hd hreaches
  split
  · exact .behindNext (.ok hreaches.advance _)
  · rename_i hkind
    have hsize := Cursor.size_advance_lt (c := d) (by simp [hkind])
    exact .behindNext ((readArguments_along d.advance hreaches.advance).map _)
  · exact .behindNext (.fail hreaches.advance hreaches (d.peek.fault_unexpected _))
termination_by 3 * c.size + 3

end

theorem read_along (h : o.Reaches c) : (read c).Along o :=
  readAt_along 0 c h

end Expr

/-! ## Statements -/

namespace Statement

theorem readItems_along (line : Nat) (c : Cursor) (h : o.Reaches c) :
    (readItems line c).Along o := by
  rw [readItems_eq]
  apply (Expr.read_along h).andThen
  intro e d hd hreaches
  split
  · rename_i hkind
    have hsize :=
      Cursor.size_advance_lt (c := d) (by rcases hkind with hkind | hkind <;> simp [hkind])
    apply Along.behindNext
    split
    · exact .ok hreaches.advance _
    · exact (readItems_along line d.advance hreaches.advance).map _
  · exact .ok hreaches _
termination_by c.size

theorem readPrint_along (h : o.Reaches c) (line : Nat) : (readPrint line c).Along o := by
  unfold readPrint
  split
  · exact .ok h _
  · exact (readItems_along line c h).map _

theorem readAssign_along (h : o.Reaches c) : (readAssign c).Along o := by
  apply (Ident.read_along h).andThen
  intro v d₁ _ h₁
  apply (h₁.expect _ _).andThen
  intro _ d₂ _ h₂
  exact (Expr.read_along h₂).map _

theorem readPromptEnd_along (h : o.Reaches c) : (readPromptEnd c).Along o := by
  unfold readPromptEnd
  apply Along.behindNext
  split
  · exact .ok h.advance ()
  · exact .fail h.advance h (.expected ("';' after prompt, found " ++ c.peek.describe))

theorem readInput_along (h : o.Reaches c) : (readInput c).Along o := by
  unfold readInput
  split
  · apply Along.behindNext
    apply (readPromptEnd_along h.advance).andThen
    intro _ d _ hreaches
    exact (Ident.read_along hreaches).map _
  · exact (Ident.read_along h).map _

theorem readGoto_along (h : o.Reaches c) : (readGoto c).Along o := by
  unfold readGoto
  apply Along.behindNext
  split
  · split
    · exact .ok h.advance _
    · rename_i e he
      exact .fail h.advance h (.lineNumber he)
  · exact .fail h.advance h (c.peek.fault_unexpected _)

theorem readStep_along (h : o.Reaches c) : (readStep c).Along o := by
  unfold readStep
  split
  · exact .behindNext (Expr.read_along h.advance)
  · exact .ok h _

theorem readLoop_along (h : o.Reaches c) (number : Nat) : (readLoop number c).Along o := by
  apply (Ident.read_along h).andThen
  intro v d₁ _ h₁
  apply (h₁.expect _ _).andThen
  intro _ d₂ _ h₂
  apply (Expr.read_along h₂).andThen
  intro start d₃ _ h₃
  apply (h₃.expect _ _).andThen
  intro _ d₄ _ h₄
  apply (Expr.read_along h₄).andThen
  intro limit d₅ _ h₅
  exact (readStep_along h₅).map _

theorem readNext_along (h : o.Reaches c) (line : Nat) : (readNext line c).Along o := by
  unfold readNext
  split
  · exact (Ident.read_along h).map _
  · exact .ok h _

theorem readRemark_along (h : o.Reaches c) (line : Nat) : (readRemark line c).Along o := by
  unfold readRemark
  split
  · exact .behindNext (.ok h.advance _)
  · exact .ok h _

-- The statement behind a condition is read by the same reader.
theorem read_along (line number : Nat) (c : Cursor) (h : o.Reaches c) :
    (read line number c).Along o := by
  rw [read_eq]
  split
  · exact readAssign_along h
  · rename_i k hk
    have hsize := Cursor.size_advance_lt (c := c) (by simp [hk])
    apply Along.behindNext
    cases k with
    | END => exact .ok h.advance _
    | FOR => exact readLoop_along h.advance number
    | GOTO => exact readGoto_along h.advance
    | IF =>
      unfold readBehind
      apply (Expr.read_along h.advance).andThen
      intro condition d₁ hd₁ h₁
      apply (h₁.expect _ _).andThen
      intro _ d₂ hd₂ h₂
      split
      · exact (readGoto_along h₂).map _
      · exact (read_along line number d₂ h₂).map _
    | INPUT => exact readInput_along h.advance
    | LET => exact readAssign_along h.advance
    | NEXT => exact readNext_along h.advance line
    | PRINT => exact readPrint_along h.advance line
    | REM => exact readRemark_along h.advance line
    | STEP | THEN | TO =>
      exact .fail h.advance h (.expected ("statement, found " ++ Keyword.text _))
  · exact .fail h h (c.peek.fault_unexpected _)
termination_by c.size

end Statement

/-! ## Programs -/

namespace Program

variable {k : Cursor}

/-- A line that is turned away is a fault of its number. -/
theorem insertThen_along (hk : o.Reaches k) (h : o.Reaches c) {next : Program → Reading Program c}
    (hnext : ∀ q, (next q).Along o) (p : Program) (n : Nat) (st : Statement) :
    (p.insertThen k.peek n st c next).Along o := by
  unfold insertThen
  split
  · split
    · rename_i hinsert
      exact .fail h hk (.insert (congrArg Prod.fst hinsert))
    · exact hnext _
  · exact .fail h h .unexpected

theorem readLineThen_along (hk : o.Reaches k) (h : o.Reaches c)
    {next : Program → (d : Cursor) → d.size ≤ c.size → Reading Program d}
    (hnext : ∀ q d hd, o.Reaches d → (next q d hd).Along o) (p : Program) :
    (p.readLineThen k.peek c next).Along o := by
  unfold readLineThen
  split
  · rename_i hnumber
    exact .fail h hk (.lineNumber hnumber)
  · apply (Statement.read_along _ _ c h).andThen
    intro st d hd hreaches
    exact insertThen_along hk hreaches (fun q => hnext q d hd hreaches) p _ st

theorem read_along (p : Program) (c : Cursor) (h : o.Reaches c) : (p.read c).Along o := by
  have hnext (hend : c.peek.kind ≠ .endOfInput) (q : Program) (d : Cursor)
      (hd : d.size ≤ c.advance.size) (hreaches : o.Reaches d) : (q.read d).Along o :=
    have := Cursor.size_advance_lt hend
    read_along q d hreaches
  rw [read_eq]
  split
  · exact .ok h p
  · rename_i hkind
    exact .behindNext (readLineThen_along h h.advance (hnext (by simp [hkind])) p)
  · rename_i hkind
    exact .behindNext (readLineThen_along h h.advance (hnext (by simp [hkind])) p)
  · exact .behindNext (.fail h.advance h (c.peek.fault_unexpected _))
termination_by c.size

end Program

end Readers

/-! ## Among some tokens -/

section Among

variable {P : Token → Prop}

/-- All tokens that come up from a cursor on are among some tokens. -/
structure Cursor.Among (P : Token → Prop) (c : Cursor) : Prop where
  tokens : ∀ t ∈ c.tokens, P t
  stop : P (.endAt c.stop)

/-- A reading that fails blames one of some tokens. -/
def Reading.Blames (P : Token → Prop) {α : Type} {c : Cursor} (r : Reading α c) : Prop :=
  ∀ e, r.result = .error e → ∃ t, P t ∧ t.Fault e

namespace Cursor.Among

variable {c d : Cursor}

theorem peek (h : c.Among P) : P c.peek := by
  obtain ⟨tokens, stop⟩ := c
  cases tokens with
  | nil => exact h.stop
  | cons t ts => exact h.tokens t List.mem_cons_self

theorem advance (h : c.Among P) : c.advance.Among P := by
  unfold Cursor.advance
  split
  · exact h
  · exact ⟨fun t ht => h.tokens t (List.mem_of_mem_tail ht), h.stop⟩

theorem of_reaches (h : c.Among P) (hd : c.Reaches d) : d.Among P := by
  induction hd with
  | refl => exact h
  | advance _ ih => exact ih.advance

end Cursor.Among

variable {c : Cursor}

theorem Reading.Along.blames {α : Type} {r : Reading α c} (h : r.Along c) (hamong : c.Among P) :
    r.Blames P := by
  intro e he
  obtain ⟨d, hreaches, hfault⟩ := h.error e he
  exact ⟨d.peek, (hamong.of_reaches hreaches).peek, hfault⟩

theorem Expr.blames (h : c.Among P) : (read c).Blames P :=
  (read_along .refl).blames h

theorem Statement.blames (line number : Nat) (c : Cursor) (h : c.Among P) :
    (read line number c).Blames P :=
  (read_along line number c .refl).blames h

theorem Program.exists_fault_of_ofTokens {tokens : List Token}
    (h : (Cursor.ofTokens tokens).Among P) {e : Error} (he : ofTokens tokens = .error e) :
    ∃ t, P t ∧ t.Fault e := by
  unfold ofTokens at he
  split at he
  · rename_i t hfind
    cases he
    have hkind : t.kind = .illegal := by simpa using List.find?_some hfind
    exact ⟨t, h.tokens t (List.mem_of_find?_eq_some hfind), .illegal hkind⟩
  · exact (read_along .empty _ .refl).blames h e he

end Among

end LineBasic
