import LineBasic.Statement.Cursor

/-!
# What readers give

`Reading.Gives` says that a reader succeeded, with what, and where it stopped. Each way of putting
readers together has a law for it, so that a reader is taken apart without looking at its
definition. `Cursor.prepend` is the cursor that stands some tokens before another one, and
`Cursor.Reaches` says that a cursor comes to another one by going on.
-/

namespace LineBasic

namespace Reading

variable {α β : Type} {c d : Cursor}

/-- A reader read something and stopped at a cursor. -/
def Gives (r : Reading α c) (a : α) (d : Cursor) : Prop :=
  r.result = .ok a ∧ r.rest = d

@[simp] theorem ok_gives {a b : α} : (ok a : Reading α c).Gives b d ↔ a = b ∧ c = d := by
  simp [Gives, ok]

@[simp] theorem error_gives {e : Error} {a : α} : ¬ (error e : Reading α c).Gives a d := by
  simp [Gives, error]

@[simp] theorem behindNext_gives {r : Reading α c.advance} {a : α} :
    r.behindNext.Gives a d ↔ r.Gives a d :=
  Iff.rfl

theorem Gives.size_le {r : Reading α c} {a : α} (h : r.Gives a d) : d.size ≤ c.size :=
  h.2 ▸ r.size_le

theorem andThen_gives {r : Reading α c} {f : α → (d : Cursor) → d.size ≤ c.size → Reading β d}
    {b : β} :
    (r.andThen f).Gives b d ↔ ∃ a c', ∃ h : r.Gives a c', (f a c' h.size_le).Gives b d := by
  obtain ⟨result, rest, hle⟩ := r
  cases result with
  | error e => simp [andThen, Gives]
  | ok a =>
    constructor
    · intro h
      exact ⟨a, rest, ⟨rfl, rfl⟩, h⟩
    · rintro ⟨a', c', ⟨ha, hc⟩, hf⟩
      obtain rfl := Except.ok.inj ha
      obtain rfl := hc
      exact hf

theorem map_gives {f : α → β} {r : Reading α c} {b : β} :
    (r.map f).Gives b d ↔ ∃ a, r.Gives a d ∧ f a = b := by
  obtain ⟨result, rest, hle⟩ := r
  cases result with
  | error e => simp [map, Gives, Except.map]
  | ok a =>
    simp only [map, Gives, Except.map, Except.ok.injEq]
    constructor
    · rintro ⟨hb, hd⟩
      exact ⟨a, ⟨rfl, hd⟩, hb⟩
    · rintro ⟨_, ⟨rfl, hd⟩, hb⟩
      exact ⟨hb, hd⟩

end Reading

namespace Cursor

variable {c d : Cursor}

/-- The cursor at a position of a list of tokens. -/
def atPosition (tokens : List Token) (position : Nat) : Cursor :=
  { ofTokens tokens with tokens := tokens.drop position }

/-- A cursor is reached from another one by going on. -/
inductive Reaches (c : Cursor) : Cursor → Prop
  | refl : Reaches c c
  | advance {d : Cursor} (h : Reaches c d) : Reaches c d.advance

/-- The cursor that stands before some more tokens. -/
def prepend (ts : List Token) (d : Cursor) : Cursor :=
  ⟨ts ++ d.tokens, d.stop⟩

@[simp] theorem prepend_nil : d.prepend [] = d := rfl

theorem prepend_append (ts us : List Token) : d.prepend (ts ++ us) = (d.prepend us).prepend ts := by
  simp [prepend]

@[simp] theorem peek_prepend_cons (t : Token) (ts : List Token) :
    (d.prepend (t :: ts)).peek = t := rfl

theorem advance_prepend_cons {t : Token} (ts : List Token) (h : t.kind ≠ .endOfInput) :
    (d.prepend (t :: ts)).advance = d.prepend ts := by
  have ht : t.isEnd = false := by simpa [Token.isEnd] using h
  simp [advance, peek, ht, prepend]

/-- At an end token a cursor stands still. -/
theorem advance_of_end (h : c.peek.kind = .endOfInput) : c.advance = c := by
  simp [advance, Token.isEnd, h]

/-- A cursor that shows a token other than the end stands before it. -/
theorem eq_prepend_peek (h : c.peek.kind ≠ .endOfInput) : c = c.advance.prepend [c.peek] := by
  obtain ⟨tokens, stop⟩ := c
  cases tokens with
  | nil => exact absurd rfl h
  | cons t ts =>
    have ht : t.isEnd = false := by simpa [Token.isEnd, peek] using h
    simp [advance, prepend, peek, ht]

@[simp] theorem size_prepend (ts : List Token) : (d.prepend ts).size = ts.length + d.size := by
  simp [size, prepend]

theorem expect_gives {kind : Kind} {expected : String} {u : Unit} :
    (c.expect kind expected).Gives u d ↔ c.peek.kind = kind ∧ c.advance = d := by
  unfold expect
  rw [Reading.behindNext_gives]
  split
  · rename_i h
    simp [h]
  · rename_i h
    simp [h]

end Cursor

end LineBasic
