import LineBasic.Proofs.Statement.Reading
import LineBasic.Statement.ReadExpr

/-!
# The grammar of expressions

The grammar has a level for each group of operators. In the usual notation it is

    comparison ::= comparison (= | <> | < | <= | > | >=) sum | sum
    sum        ::= sum (+ | -) product | product
    product    ::= product (* | /) power | power
    power      ::= signed ^ power | signed
    signed     ::= - signed | + signed | atom
    atom       ::= number | string | name | name ( ) | name ( arguments ) | ( comparison )
    arguments  ::= comparison | comparison , arguments

and `Expr.Derives` says which expression the tokens of a phrase stand for. The reader of
expressions, which climbs precedences, gives exactly what the grammar derives from the longest
phrase that it can take.
-/

namespace LineBasic

namespace Expr

/-- The levels of the grammar, from the loosest operators to none. -/
inductive Level where
  | comparison
  | sum
  | product
  | power
  | signed
  | atom
  deriving DecidableEq

/-- The level that a phrase of this level may consist of alone. -/
def Level.tighter : Level → Level
  | comparison => sum
  | sum => product
  | product => power
  | power => signed
  | signed | atom => atom

end Expr

/-- The level of the phrases that an operator makes. -/
def Operator.level : Operator → Expr.Level
  | equal | notEqual | less | lessEqual | greater | greaterEqual => .comparison
  | add | subtract => .sum
  | multiply | divide => .product
  | power => .power

namespace Expr

mutual

/-- These tokens are a phrase of a level and stand for an expression. -/
inductive Derives : Level → List Token → Expr → Prop
  | tighter {level : Level} {ts : List Token} {e : Expr} (h : Derives level.tighter ts e) :
      Derives level ts e
  /-- All operators but powers group to the left. -/
  | left {op : Operator} {t : Token} {ls rs : List Token} {a b : Expr} (hop : op ≠ .power)
      (ht : t.kind = .operator op) (hl : Derives op.level ls a)
      (hr : Derives op.level.tighter rs b) :
      Derives op.level (ls ++ t :: rs) (.binary op a b)
  | power {t : Token} {ls rs : List Token} {a b : Expr} (ht : t.kind = .operator .power)
      (hl : Derives .signed ls a) (hr : Derives .power rs b) :
      Derives .power (ls ++ t :: rs) (.binary .power a b)
  | minus {t : Token} {ts : List Token} {e : Expr} (ht : t.kind = .operator .subtract)
      (h : Derives .signed ts e) :
      Derives .signed (t :: ts) (.binary .subtract (.number 0) e)
  | plus {t : Token} {ts : List Token} {e : Expr} (ht : t.kind = .operator .add)
      (h : Derives .signed ts e) :
      Derives .signed (t :: ts) e
  | number {t : Token} {x : Float} (ht : t.kind = .number ∨ t.kind = .lineNumber)
      (h : Number.ofText? t.text.toList = some x) : Derives .atom [t] (.number x)
  | text {t : Token} (ht : t.kind = .string) : Derives .atom [t] (.text t.text)
  /-- The name of a built-in function is a call by itself. -/
  | builtin {t : Token} {f : Builtin} (ht : t.kind = .name) (hf : f.name = t.text.toUpper) :
      Derives .atom [t] (.call ⟨t.text.toUpper⟩ [])
  | var {t : Token} (ht : t.kind = .name) (hf : ∀ f : Builtin, f.name ≠ t.text.toUpper) :
      Derives .atom [t] (.var ⟨t.text.toUpper⟩)
  | call {t l r : Token} (ht : t.kind = .name) (hl : l.kind = .leftParen)
      (hr : r.kind = .rightParen) :
      Derives .atom [t, l, r] (.call ⟨t.text.toUpper⟩ [])
  | callWith {t l r : Token} {ts : List Token} {es : List Expr} (ht : t.kind = .name)
      (hl : l.kind = .leftParen) (hr : r.kind = .rightParen) (h : DerivesArguments ts es) :
      Derives .atom (t :: l :: (ts ++ [r])) (.call ⟨t.text.toUpper⟩ es)
  | paren {l r : Token} {ts : List Token} {e : Expr} (hl : l.kind = .leftParen)
      (hr : r.kind = .rightParen) (h : Derives .comparison ts e) :
      Derives .atom (l :: (ts ++ [r])) (.paren e)

/-- These tokens are arguments of a call. -/
inductive DerivesArguments : List Token → List Expr → Prop
  | last {ts : List Token} {e : Expr} (h : Derives .comparison ts e) : DerivesArguments ts [e]
  | more {t : Token} {ts us : List Token} {e : Expr} {es : List Expr} (ht : t.kind = .comma)
      (h : Derives .comparison ts e) (hs : DerivesArguments us es) :
      DerivesArguments (ts ++ t :: us) (e :: es)

end

/-- No operator follows that binds at least as tightly as `least`. -/
def Stops (least : Nat) (c : Cursor) : Prop :=
  ∀ op, c.peek.kind = .operator op → op.precedence < least

/-- Where a phrase ends in a name, no parenthesis follows that would make it a call. -/
def Munched (ts : List Token) (c : Cursor) : Prop :=
  ∀ t, ts.getLast? = some t → t.kind = .name → c.peek.kind ≠ .leftParen

/-! ## Levels and precedences -/

/-- How many levels are looser. -/
def Level.rank : Level → Nat
  | comparison => 0
  | sum => 1
  | product => 2
  | power => 3
  | signed => 4
  | atom => 5

/-- The level of what is read with operators that bind at least as tightly as `least`. -/
def Level.ofLeast (least : Nat) : Level :=
  if least ≤ 10 then comparison
  else if least ≤ 20 then sum
  else if least ≤ 30 then product
  else if least ≤ 40 then power
  else signed

/-- The level of the left operand of an operator. -/
def Level.ofLeft (op : Operator) : Level :=
  if op = .power then signed else op.level

theorem Level.rank_tighter {level : Level} (h : level.rank < 5) :
    level.tighter.rank = level.rank + 1 := by
  cases level <;> first | rfl | exact absurd h (by decide)

theorem Level.rank_le_five (level : Level) : level.rank ≤ 5 := by
  cases level <;> decide

theorem Level.eq_of_rank {level level' : Level} (h : level.rank = level'.rank) :
    level = level' := by
  cases level <;> cases level' <;> first | rfl | exact absurd h (by decide)

theorem Level.rank_ofLeast_le {least : Nat} {op : Operator} (h : least ≤ op.precedence) :
    (ofLeast least).rank ≤ op.level.rank := by
  unfold ofLeast
  cases op <;> simp only [Operator.precedence] at h <;> (repeat' split) <;> first | omega | decide

theorem Level.rank_ofLeast_le_signed (least : Nat) : (ofLeast least).rank ≤ signed.rank := by
  unfold ofLeast
  repeat' split
  all_goals decide

theorem Level.rank_ofLeft_le_signed (op : Operator) : (ofLeft op).rank ≤ signed.rank := by
  cases op <;> decide

theorem Level.rank_ofLeft_le {op next : Operator} (h : next.precedence < op.rightPrecedence) :
    (ofLeft next).rank ≤ op.level.rank := by
  cases op <;> cases next <;> first | decide | exact absurd h (by decide)

theorem Level.ofLeast_rightPrecedence {op : Operator} (h : op ≠ .power) :
    ofLeast op.rightPrecedence = op.level.tighter := by
  cases op <;> first | rfl | exact absurd rfl h

/-- A phrase of a tighter level is one of every looser level. -/
theorem Derives.loosen {level level' : Level} {ts : List Token} {e : Expr}
    (hle : level'.rank ≤ level.rank) (h : Derives level ts e) : Derives level' ts e := by
  obtain ⟨n, hn⟩ := Nat.exists_eq_add_of_le hle
  induction n generalizing level' with
  | zero => exact Level.eq_of_rank hn ▸ h
  | succ n ih =>
    have hrank := level.rank_le_five
    have htighter : level'.tighter.rank = level'.rank + 1 := Level.rank_tighter (by omega)
    exact .tighter (ih (by omega) (by omega))

/-! ## The end of a phrase -/

section munched

variable {c : Cursor} {t : Token} {l ts : List Token}

theorem Munched.append_cons (ht : t.kind ≠ .name) (h : Munched ts c) :
    Munched (l ++ t :: ts) c := by
  intro u hu hname
  rw [List.getLast?_append, List.getLast?_cons] at hu
  cases hts : ts.getLast? with
  | none =>
    rw [hts] at hu
    obtain rfl : t = u := by simpa using hu
    exact absurd hname ht
  | some v =>
    rw [hts] at hu
    obtain rfl : v = u := by simpa using hu
    exact h v hts hname

theorem Munched.of_append_cons (h : Munched (l ++ t :: ts) c) : Munched ts c := by
  intro u hu hname
  refine h u ?_ hname
  rw [List.getLast?_append, List.getLast?_cons, hu]
  rfl

theorem Munched.cons (ht : t.kind ≠ .name) (h : Munched ts c) : Munched (t :: ts) c :=
  append_cons (l := []) ht h

theorem Munched.concat (ht : t.kind ≠ .name) : Munched (l ++ [t]) c :=
  append_cons ht fun _ h => nomatch h

theorem Munched.singleton (h : c.peek.kind ≠ .leftParen) : Munched [t] c :=
  fun _ _ _ => h

end munched

/-- How tightly the operators of a level bind. -/
def Level.precedence : Level → Nat
  | comparison => 10
  | sum => 20
  | product => 30
  | power => 40
  | signed | atom => 50

/-- How tightly an operator has to bind to take a phrase of the level away from an operator before
it. -/
def Level.rightPrecedence : Level → Nat
  | comparison => 11
  | sum => 21
  | product => 31
  | power => 40
  | signed | atom => 50

theorem Level.precedence_le_tighter (level : Level) :
    level.precedence ≤ level.tighter.precedence := by
  cases level <;> decide

theorem Level.rightPrecedence_le_tighter (level : Level) :
    level.rightPrecedence ≤ level.tighter.rightPrecedence := by
  cases level <;> decide

theorem Level.rightPrecedence_le_precedence_tighter (level : Level) :
    level.rightPrecedence ≤ level.tighter.precedence := by
  cases level <;> decide

theorem precedence_level (op : Operator) : op.level.precedence = op.precedence := by
  cases op <;> rfl

theorem rightPrecedence_level (op : Operator) : op.level.rightPrecedence = op.rightPrecedence := by
  cases op <;> rfl

theorem precedence_lt_rightPrecedence {op : Operator} (h : op ≠ .power) :
    op.precedence < op.rightPrecedence := by
  cases op <;> first | decide | exact absurd rfl h

theorem Stops.mono {least least' : Nat} {c : Cursor} (h : Stops least c) (hle : least ≤ least') :
    Stops least' c :=
  fun op hop => Nat.lt_of_lt_of_le (h op hop) hle

theorem stops_signPrecedence (c : Cursor) : Stops signPrecedence c :=
  fun op _ => by cases op <;> decide

theorem stops_signed (c : Cursor) : Stops Level.signed.rightPrecedence c :=
  stops_signPrecedence c

theorem stops_of_kind {least : Nat} {c : Cursor} {kind : Kind} (h : c.peek.kind = kind)
    (hkind : ∀ op, kind ≠ .operator op) : Stops least c :=
  fun op hop => absurd (h.symm.trans hop) (hkind op)

/-- A phrase begins with a token that closes no parenthesis. -/
theorem Derives.exists_cons {level : Level} {ts : List Token} {e : Expr} :
    Derives level ts e → ∃ t us, ts = t :: us ∧ t.kind ≠ .rightParen ∧ t.kind ≠ .endOfInput
  | .tighter h => h.exists_cons
  | .left _ _ hl _ => by
    obtain ⟨t, us, rfl, ht⟩ := hl.exists_cons
    exact ⟨t, _, List.cons_append, ht⟩
  | .power _ hl _ => by
    obtain ⟨t, us, rfl, ht⟩ := hl.exists_cons
    exact ⟨t, _, List.cons_append, ht⟩
  | .minus ht _ | .plus ht _ | .text ht | .builtin ht _ | .var ht _ | .call ht _ _
  | .callWith ht _ _ _
  | .paren ht _ _ =>
    ⟨_, _, rfl, by simp [ht]⟩
  | .number ht _ => ⟨_, _, rfl, by rcases ht with ht | ht <;> simp [ht]⟩

end Expr

end LineBasic
