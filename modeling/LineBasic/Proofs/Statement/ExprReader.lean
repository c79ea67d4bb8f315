import LineBasic.Proofs.Statement.ExprGrammar
import LineBasic.Statement.ReadExpr

/-!
# The reader of expressions, taken apart

For each reader of expressions, what it gives in terms of the readers that it calls: one equivalence
for each kind of token that it can meet.
-/

namespace LineBasic.Expr

variable {c d : Cursor} {e left : Expr} {least : Nat} {op : Operator}

theorem readAt_gives : (readAt least c).Gives e d ↔
    ∃ left c', (readOperand c).Gives left c' ∧ (readMore least left c').Gives e d := by
  rw [readAt, Reading.andThen_gives]
  simp only [exists_prop]

theorem readMore_gives_of_stops (h : Stops least c) :
    (readMore least left c).Gives e d ↔ left = e ∧ c = d := by
  rw [readMore]
  split
  · rename_i op hop
    rw [if_pos (h op hop), Reading.ok_gives]
  · rw [Reading.ok_gives]

theorem readMore_gives_of_operator (hop : c.peek.kind = .operator op)
    (hle : least ≤ op.precedence) :
    (readMore least left c).Gives e d ↔
      ∃ right c', (readAt op.rightPrecedence c.advance).Gives right c' ∧
      (readMore least (.binary op left right) c').Gives e d := by
  rw [readMore]
  split
  · rename_i op' hop'
    obtain rfl : op = op' := Kind.operator.inj (hop.symm.trans hop')
    rw [if_neg (Nat.not_lt.mpr hle), Reading.behindNext_gives, Reading.andThen_gives]
    simp only [exists_prop]
  · rename_i hne
    exact absurd hop (hne op)

theorem readOperand_gives_of_minus (h : c.peek.kind = .operator .subtract) :
    (readOperand c).Gives e d ↔
      ∃ a, (readAt signPrecedence c.advance).Gives a d ∧ .binary .subtract (.number 0) a = e := by
  rw [readOperand]
  split <;> simp_all [Reading.map_gives]

theorem readOperand_gives_of_plus (h : c.peek.kind = .operator .add) :
    (readOperand c).Gives e d ↔ (readAt signPrecedence c.advance).Gives e d := by
  rw [readOperand]
  split <;> simp_all

theorem readOperand_gives_of_number (h : c.peek.kind = .number ∨ c.peek.kind = .lineNumber) :
    (readOperand c).Gives e d ↔ ∃ x, Number.ofText? c.peek.text.toList = some x ∧ .number x = e ∧
      c.advance = d := by
  rw [readOperand]
  cases hx : Number.ofText? c.peek.text.toList with
  | none => rcases h with h | h <;> split <;> simp_all [ofNumber?]
  | some x => rcases h with h | h <;> split <;> simp_all [ofNumber?]

theorem readOperand_gives_of_string (h : c.peek.kind = .string) :
    (readOperand c).Gives e d ↔ .text c.peek.text = e ∧ c.advance = d := by
  rw [readOperand]
  split <;> simp_all

theorem readOperand_gives_of_name (h : c.peek.kind = .name)
    (hnext : c.advance.peek.kind ≠ .leftParen) :
    (readOperand c).Gives e d ↔ ofName (.ofText c.peek.text) = e ∧ c.advance = d := by
  rw [readOperand]
  split <;> simp_all

theorem readOperand_gives_of_call (h : c.peek.kind = .name)
    (hleft : c.advance.peek.kind = .leftParen)
    (hright : c.advance.advance.peek.kind = .rightParen) :
    (readOperand c).Gives e d ↔ .call (.ofText c.peek.text) [] = e ∧
      c.advance.advance.advance = d := by
  rw [readOperand]
  split <;> simp_all

theorem readOperand_gives_of_callWith (h : c.peek.kind = .name)
    (hleft : c.advance.peek.kind = .leftParen)
    (hright : c.advance.advance.peek.kind ≠ .rightParen) :
    (readOperand c).Gives e d ↔
      ∃ es, (readArguments c.advance.advance).Gives es d ∧ .call (.ofText c.peek.text) es = e := by
  rw [readOperand]
  split <;> simp_all [Reading.map_gives]

theorem readOperand_gives_of_paren (h : c.peek.kind = .leftParen) :
    (readOperand c).Gives e d ↔ ∃ a c', c'.peek.kind = .rightParen ∧ c'.advance = d ∧
      (readAt 0 c.advance).Gives a c' ∧ .paren a = e := by
  rw [readOperand]
  split <;> simp_all [Reading.andThen_gives, Reading.map_gives, Cursor.expect_gives, and_assoc]

/-- What can begin an operand. -/
theorem not_readOperand_gives (h : c.peek.kind ≠ .operator .subtract ∧
    c.peek.kind ≠ .operator .add ∧ c.peek.kind ≠ .leftParen ∧ c.peek.kind ≠ .number ∧
    c.peek.kind ≠ .lineNumber ∧ c.peek.kind ≠ .string ∧ c.peek.kind ≠ .name) :
    ¬ (readOperand c).Gives e d := by
  rw [readOperand]
  split <;> simp_all

theorem readArguments_gives {es : List Expr} : (readArguments c).Gives es d ↔
    ∃ e c', (readAt 0 c).Gives e c' ∧
      (c'.peek.kind = .rightParen ∧ [e] = es ∧ c'.advance = d ∨
        c'.peek.kind = .comma ∧ ∃ es', (readArguments c'.advance).Gives es' d ∧ e :: es' = es) := by
  rw [readArguments, Reading.andThen_gives]
  simp only [exists_prop]
  apply exists_congr
  intro e
  apply exists_congr
  intro c'
  apply and_congr_right
  intro _
  split <;> simp_all [Reading.map_gives]

end LineBasic.Expr
