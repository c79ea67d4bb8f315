import LineBasic.Proofs.Statement.Phrases
import LineBasic.Proofs.Token.Newline

/-!
# Reading a line by itself and in a text

The same tokens are read once with the end of the source behind them and once, some lines further
down, with another line behind them. A reader of the line by itself does what the reader of the text
does, or it fails at the end of the line: no reader takes the first token of the next line where it
could have stopped (`LineInText.read_agrees`). Both readings are followed together, reader by reader
(`LineInText.Agrees`).
-/

namespace LineBasic

/-- A line by itself and the same line in a text. -/
structure LineInText where
  /-- The physical line of the line by itself. -/
  line : Nat
  /-- How many lines further down the line is in the text. -/
  down : Nat
  /-- The end of the line by itself. -/
  stop : Cursor
  /-- What stands behind the line in the text. -/
  next : Cursor
  stop_kind : stop.peek.kind = .endOfInput
  next_ends : next.Ends (line + down)

namespace LineInText

variable {α β : Type} (x : LineInText) {c d : Cursor}

/-- Two cursors stand at the same token of the line, or both behind it. -/
def Beside (c d : Cursor) : Prop :=
  ∃ ts, Token.OnLine x.line ts ∧ c = x.stop.prepend ts ∧
    d = x.next.prepend (ts.map (Token.move (.down x.down)))

/-- A reader fails at the end of the line. -/
def BreaksOff (r : Reading α c) : Prop :=
  ∃ e, r.result = .error e ∧ e.position = some x.stop.peek.position

/-- A reader of the line by itself fails at its end, or gives what was read in the text and stops at
the same place. -/
def Agrees (r : Reading α c) (a : α) (d : Cursor) : Prop :=
  x.BreaksOff r ∨ ∃ c', r.Gives a c' ∧ x.Beside c' d

variable {x}

/-! ## Both cursors -/

/-- Both cursors stand behind the line. -/
structure AtEnd (x : LineInText) (c d : Cursor) : Prop where
  kind : c.peek.kind = .endOfInput
  position : c.peek.position = x.stop.peek.position
  ends : d.Ends (x.line + x.down)
  beside : x.Beside c d

/-- Both cursors stand at a token of the line. -/
structure AtToken (x : LineInText) (c d : Cursor) : Prop where
  peek : d.peek = c.peek.move (.down x.down)
  kind_ne_end : c.peek.kind ≠ .endOfInput
  kind_ne_lineNumber : c.peek.kind ≠ .lineNumber
  line : c.peek.line = x.line
  advance : x.Beside c.advance d.advance
  beside : x.Beside c d

theorem Beside.cases (h : x.Beside c d) : x.AtEnd c d ∨ x.AtToken c d := by
  obtain ⟨ts, hts, rfl, rfl⟩ := h
  cases ts with
  | nil => exact .inl ⟨x.stop_kind, rfl, x.next_ends, ⟨[], hts, rfl, rfl⟩⟩
  | cons t us =>
    obtain ⟨⟨hnumber, hend, hline⟩, hus⟩ := List.forall_mem_cons.mp hts
    have hbeside : x.Beside (x.stop.prepend us)
        (x.next.prepend (us.map (Token.move (.down x.down)))) :=
      ⟨us, hus, rfl, rfl⟩
    refine .inr ⟨rfl, hend, hnumber, hline, ?_, ⟨t :: us, hts, rfl, rfl⟩⟩
    rw [List.map_cons, Cursor.advance_prepend_cons us hend,
      Cursor.advance_prepend_cons (t := t.move (.down x.down)) _ hend]
    exact hbeside

namespace AtToken

variable (h : x.AtToken c d)
include h

theorem kind : d.peek.kind = c.peek.kind := by
  rw [h.peek]
  rfl

theorem text : d.peek.text = c.peek.text := by
  rw [h.peek]
  rfl

theorem atEndOfStatement :
    c.atEndOfStatement x.line = false ∧ d.atEndOfStatement (x.line + x.down) = false := by
  have hline : d.peek.line = x.line + x.down := by
    rw [h.peek, ← h.line]
    rfl
  unfold Cursor.atEndOfStatement
  rw [h.kind]
  constructor
  · split
    · exact absurd ‹_› h.kind_ne_end
    · exact absurd ‹_› h.kind_ne_lineNumber
    · simp [h.line]
  · split
    · exact absurd ‹_› h.kind_ne_end
    · exact absurd ‹_› h.kind_ne_lineNumber
    · simp [hline]

end AtToken

theorem AtEnd.atEndOfStatement (h : x.AtEnd c d) :
    c.atEndOfStatement x.line = true ∧ d.atEndOfStatement (x.line + x.down) = true := by
  refine ⟨?_, h.ends.atEndOfStatement⟩
  unfold Cursor.atEndOfStatement
  rw [h.kind]

/-- The statement is over for both readers or for none. -/
theorem Beside.atEndOfStatement (h : x.Beside c d) :
    c.atEndOfStatement x.line = d.atEndOfStatement (x.line + x.down) := by
  rcases h.cases with h | h
  · rw [h.atEndOfStatement.1, h.atEndOfStatement.2]
  · rw [h.atEndOfStatement.1, h.atEndOfStatement.2]

/-- Where the statement is over both cursors stand behind the line. -/
theorem Beside.eq_of_atEndOfStatement (h : x.Beside c d)
    (hd : d.atEndOfStatement (x.line + x.down) = true) : c = x.stop ∧ d = x.next := by
  obtain ⟨ts, hts, rfl, rfl⟩ := h
  cases ts with
  | nil => exact ⟨rfl, rfl⟩
  | cons t us =>
    have hbeside : x.Beside (x.stop.prepend (t :: us))
        (x.next.prepend ((t :: us).map (Token.move (.down x.down)))) :=
      ⟨_, hts, rfl, rfl⟩
    have hnot := Cursor.atEndOfStatement_prepend_cons (d := x.stop) hts
    rw [hbeside.atEndOfStatement, hd] at hnot
    cases hnot

/-- Other tokens than those that can stand at the end of a line are met by both readers. -/
theorem Beside.kind_eq_iff (h : x.Beside c d) (kind : Kind) (hend : kind ≠ .endOfInput)
    (hnumber : kind ≠ .number) (hline : kind ≠ .lineNumber) :
    c.peek.kind = kind ↔ d.peek.kind = kind := by
  rcases h.cases with h | h
  · constructor
    · intro hc
      exact absurd (h.kind.symm.trans hc) hend.symm
    · intro hd
      exact absurd hd (h.ends.kind_ne hend hnumber hline)
  · rw [h.kind]

/-! ## Putting readers together -/

namespace BreaksOff

theorem andThen {r : Reading α c} {f : α → (d : Cursor) → d.size ≤ c.size → Reading β d}
    (h : x.BreaksOff r) : x.BreaksOff (r.andThen f) := by
  obtain ⟨e, he, hposition⟩ := h
  refine ⟨e, ?_, hposition⟩
  unfold Reading.andThen
  split
  · rename_i a ha
    cases he.symm.trans ha
  · rename_i e' he'
    exact congrArg Except.error (Except.error.inj (he'.symm.trans he))

theorem map {f : α → β} {r : Reading α c} (h : x.BreaksOff r) : x.BreaksOff (r.map f) := by
  obtain ⟨e, he, hposition⟩ := h
  refine ⟨e, ?_, hposition⟩
  rw [Reading.map, he]
  rfl

end BreaksOff

theorem breaksOff_of_atEnd (h : x.AtEnd c d) {e : Error} (he : e.position = some c.peek.position) :
    x.BreaksOff (.behindNext (.error e) : Reading α c) :=
  ⟨e, rfl, he.trans (congrArg some h.position)⟩

namespace Agrees

variable {a : α} {b : β}

theorem of_gives {c' : Cursor} {r : Reading α c} (h : r.Gives a c') (hbeside : x.Beside c' d) :
    x.Agrees r a d :=
  .inr ⟨c', h, hbeside⟩

theorem ok (h : x.Beside c d) : x.Agrees (.ok a : Reading α c) a d :=
  of_gives (Reading.ok_gives.mpr ⟨rfl, rfl⟩) h

theorem behindNext {r : Reading α c.advance} (h : x.Agrees r a d) : x.Agrees r.behindNext a d :=
  h

theorem map {f : α → β} {r : Reading α c} (h : x.Agrees r a d) : x.Agrees (r.map f) (f a) d := by
  rcases h with h | ⟨c', hgives, hbeside⟩
  · exact .inl h.map
  · exact of_gives (Reading.map_gives.mpr ⟨a, hgives, rfl⟩) hbeside

/-- Where the first reader agrees and the second one does from there on, both together do. -/
theorem andThen {r : Reading α c} {f : α → (d : Cursor) → d.size ≤ c.size → Reading β d}
    {d₁ : Cursor} (h : x.Agrees r a d₁)
    (hf : ∀ c₁ (hle : c₁.size ≤ c.size), x.Beside c₁ d₁ → x.Agrees (f a c₁ hle) b d) :
    x.Agrees (r.andThen f) b d := by
  rcases h with h | ⟨c₁, hgives, hbeside⟩
  · exact .inl h.andThen
  · rcases hf c₁ hgives.size_le hbeside with hstops | ⟨c', hgives', hbeside'⟩
    · obtain ⟨e, he, hposition⟩ := hstops
      refine .inl ⟨e, ?_, hposition⟩
      obtain ⟨hresult, rfl⟩ := hgives
      unfold Reading.andThen
      split
      · rename_i a' ha'
        obtain rfl : a = a' := Except.ok.inj (hresult.symm.trans ha')
        exact he
      · rename_i e' he'
        cases hresult.symm.trans he'
    · exact of_gives (Reading.andThen_gives.mpr ⟨a, c₁, hgives, hgives'⟩) hbeside'

end Agrees

/-! ## Tokens and names -/

theorem expect_agrees (h : x.Beside c d) {kind : Kind} {expected : String}
    (hkind : kind ≠ .endOfInput) {u : Unit} {d' : Cursor}
    (hd : (d.expect kind expected).Gives u d') : x.Agrees (c.expect kind expected) u d' := by
  obtain ⟨hpeek, rfl⟩ := Cursor.expect_gives.mp hd
  rcases h.cases with h | h
  · left
    unfold Cursor.expect
    rw [if_neg (by rw [h.kind]; exact hkind.symm)]
    exact breaksOff_of_atEnd h rfl
  · exact .of_gives (Cursor.expect_gives.mpr ⟨h.kind.symm.trans hpeek, rfl⟩) h.advance

theorem expectEqual_agrees (h : x.Beside c d) {u : Unit} {d' : Cursor}
    (hd : d.expectEqual.Gives u d') : x.Agrees c.expectEqual u d' :=
  expect_agrees h Kind.noConfusion hd

theorem expectKeyword_agrees (h : x.Beside c d) {k : Keyword} {u : Unit} {d' : Cursor}
    (hd : (d.expectKeyword k).Gives u d') : x.Agrees (c.expectKeyword k) u d' :=
  expect_agrees h Kind.noConfusion hd

theorem identRead_agrees (h : x.Beside c d) {v : Ident} {d' : Cursor}
    (hd : (Ident.read d).Gives v d') : x.Agrees (Ident.read c) v d' := by
  unfold Ident.read at hd ⊢
  rw [Reading.behindNext_gives] at hd
  split at hd
  · rename_i hname
    obtain ⟨rfl, rfl⟩ := Reading.ok_gives.mp hd
    rcases h.cases with h | h
    · left
      rw [if_neg (by simp [h.kind])]
      exact breaksOff_of_atEnd h rfl
    · rw [if_pos (h.kind.symm.trans hname), h.text]
      exact Agrees.ok h.advance
  · exact absurd hd Reading.error_gives

/-! ## Expressions -/

mutual

theorem readAt_agrees {least : Nat} {c d d' : Cursor} {e : Expr} (h : x.Beside c d)
    (hd : (Expr.readAt least d).Gives e d') : x.Agrees (Expr.readAt least c) e d' := by
  obtain ⟨left, d₁, hoperand, hmore⟩ := Expr.readAt_gives.mp hd
  rw [Expr.readAt]
  exact (readOperand_agrees h hoperand).andThen fun c₁ hle h₁ => readMore_agrees h₁ hmore
termination_by 3 * c.size + 2

theorem readMore_agrees {least : Nat} {left : Expr} {c d d' : Cursor} {e : Expr}
    (h : x.Beside c d) (hd : (Expr.readMore least left d).Gives e d') :
    x.Agrees (Expr.readMore least left c) e d' := by
  have hstops : Expr.Stops least c → Expr.Stops least d →
      x.Agrees (Expr.readMore least left c) e d' := by
    intro hc hd'
    obtain ⟨rfl, rfl⟩ := (Expr.readMore_gives_of_stops hd').mp hd
    exact .of_gives ((Expr.readMore_gives_of_stops hc).mpr ⟨rfl, rfl⟩) h
  rcases h.cases with hend | htoken
  · refine hstops (fun op hop => ?_) (fun op hop => ?_)
    · cases hend.kind.symm.trans hop
    · exact absurd hop ((Expr.closed_of_ends hend.ends).1 op)
  · by_cases hop : ∃ op, c.peek.kind = .operator op ∧ least ≤ op.precedence
    · obtain ⟨op, hop, hle⟩ := hop
      obtain ⟨right, d₁, hright, hmore⟩ :=
        (Expr.readMore_gives_of_operator (htoken.kind.trans hop) hle).mp hd
      have hsize := Cursor.size_advance_lt htoken.kind_ne_end
      rw [Expr.readMore]
      split
      · rename_i op' hop'
        obtain rfl : op = op' := Kind.operator.inj (hop.symm.trans hop')
        rw [if_neg (Nat.not_lt.mpr hle)]
        refine (readAt_agrees htoken.advance hright).andThen fun c₁ hle h₁ => ?_
        exact readMore_agrees h₁ hmore
      · rename_i hne
        exact absurd hop (hne op)
    · refine hstops (fun op hop' => ?_) (fun op hop' => ?_)
      · exact Nat.lt_of_not_le fun hle => hop ⟨op, hop', hle⟩
      · exact Nat.lt_of_not_le fun hle => hop ⟨op, htoken.kind.symm.trans hop', hle⟩
termination_by 3 * c.size + 1

theorem readOperand_agrees {c d d' : Cursor} {e : Expr} (h : x.Beside c d)
    (hd : (Expr.readOperand d).Gives e d') : x.Agrees (Expr.readOperand c) e d' := by
  rcases h.cases with hend | htoken
  · left
    rw [Expr.readOperand]
    split
    all_goals
      rename_i hkind
      try cases hend.kind.symm.trans hkind
    exact breaksOff_of_atEnd hend rfl
  · have hkind := htoken.kind
    have hsize := Cursor.size_advance_lt htoken.kind_ne_end
    rw [Expr.readOperand]
    split
    · rename_i hminus
      obtain ⟨a, ha, rfl⟩ := (Expr.readOperand_gives_of_minus (hkind.trans hminus)).mp hd
      exact (readAt_agrees htoken.advance ha).map.behindNext
    · rename_i hplus
      have ha := (Expr.readOperand_gives_of_plus (hkind.trans hplus)).mp hd
      exact (readAt_agrees htoken.advance ha).behindNext
    · rename_i hparen
      obtain ⟨a, d₁, hright, rfl, ha, rfl⟩ :=
        (Expr.readOperand_gives_of_paren (hkind.trans hparen)).mp hd
      refine Agrees.behindNext ((readAt_agrees htoken.advance ha).andThen fun c₁ hle h₁ => ?_)
      exact (expect_agrees h₁ Kind.noConfusion (u := ())
        (Cursor.expect_gives.mpr ⟨hright, rfl⟩)).map
    · rename_i hnumber
      obtain ⟨y, hy, rfl, rfl⟩ :=
        (Expr.readOperand_gives_of_number (.inl (hkind.trans hnumber))).mp hd
      rw [htoken.text] at hy
      rw [Expr.ofNumber?, hy]
      exact (Agrees.ok htoken.advance).behindNext
    · rename_i hnumber
      exact absurd hnumber htoken.kind_ne_lineNumber
    · rename_i hstring
      obtain ⟨rfl, rfl⟩ := (Expr.readOperand_gives_of_string (hkind.trans hstring)).mp hd
      rw [htoken.text]
      exact (Agrees.ok htoken.advance).behindNext
    · rename_i hname
      have hleft := htoken.advance.kind_eq_iff .leftParen nofun nofun nofun
      have hname' := hkind.trans hname
      dsimp only
      by_cases hcall : c.advance.peek.kind = .leftParen
      · have hbeside : x.Beside c.advance.advance d.advance.advance := by
          rcases htoken.advance.cases with hend | htoken'
          · cases hend.kind.symm.trans hcall
          · exact htoken'.advance
        have hright := hbeside.kind_eq_iff .rightParen nofun nofun nofun
        have hsize' := Cursor.size_advance_le c.advance
        rw [if_pos hcall]
        by_cases hempty : c.advance.advance.peek.kind = .rightParen
        · obtain ⟨rfl, rfl⟩ :=
            (Expr.readOperand_gives_of_call hname' (hleft.mp hcall) (hright.mp hempty)).mp hd
          have hadvance : x.Beside c.advance.advance.advance d.advance.advance.advance := by
            rcases hbeside.cases with hend | htoken'
            · cases hend.kind.symm.trans hempty
            · exact htoken'.advance
          rw [if_pos hempty, htoken.text]
          exact (Agrees.ok hadvance).behindNext.behindNext.behindNext
        · obtain ⟨es, hes, rfl⟩ :=
            (Expr.readOperand_gives_of_callWith hname' (hleft.mp hcall) (mt hright.mpr hempty)).mp
              hd
          rw [if_neg hempty, htoken.text]
          exact (readArguments_agrees hbeside hes).map.behindNext.behindNext
      · obtain ⟨rfl, rfl⟩ := (Expr.readOperand_gives_of_name hname' (mt hleft.mpr hcall)).mp hd
        rw [if_neg hcall, htoken.text]
        exact (Agrees.ok htoken.advance).behindNext
    · refine absurd hd (Expr.not_readOperand_gives ?_)
      rw [hkind]
      exact ⟨‹_›, ‹_›, ‹_›, ‹_›, ‹_›, ‹_›, ‹_›⟩
termination_by 3 * c.size + 1

theorem readArguments_agrees {c d d' : Cursor} {es : List Expr} (h : x.Beside c d)
    (hd : (Expr.readArguments d).Gives es d') : x.Agrees (Expr.readArguments c) es d' := by
  obtain ⟨e, d₁, he, hrest⟩ := Expr.readArguments_gives.mp hd
  rw [Expr.readArguments]
  refine (readAt_agrees h he).andThen fun c₁ hle h₁ => ?_
  have hright := h₁.kind_eq_iff .rightParen nofun nofun nofun
  have hcomma := h₁.kind_eq_iff .comma nofun nofun nofun
  rcases h₁.cases with hend | htoken
  · left
    split
    · rename_i hkind
      cases hend.kind.symm.trans hkind
    · rename_i hkind
      cases hend.kind.symm.trans hkind
    · exact breaksOff_of_atEnd hend rfl
  · have hsize := Cursor.size_advance_lt htoken.kind_ne_end
    rcases hrest with ⟨hkind, rfl, rfl⟩ | ⟨hkind, es', hes, rfl⟩
    · split
      · exact (Agrees.ok htoken.advance).behindNext
      · rename_i hkind'
        cases (hright.mpr hkind).symm.trans hkind'
      · rename_i hne _
        exact absurd (hright.mpr hkind) hne
    · split
      · rename_i hkind'
        cases (hcomma.mpr hkind).symm.trans hkind'
      · exact (readArguments_agrees htoken.advance hes).map.behindNext
      · rename_i _ hne
        exact absurd (hcomma.mpr hkind) hne
termination_by 3 * c.size + 3

end

theorem exprRead_agrees (h : x.Beside c d) {e : Expr} {d' : Cursor}
    (hd : (Expr.read d).Gives e d') : x.Agrees (Expr.read c) e d' :=
  readAt_agrees h hd

/-! ## Statements -/

open Statement

theorem Beside.isSeparator_iff (h : x.Beside c d) : c.peek.IsSeparator ↔ d.peek.IsSeparator :=
  or_congr (h.kind_eq_iff _ nofun nofun nofun) (h.kind_eq_iff _ nofun nofun nofun)

/-- Behind a token that cannot stand at the end of the line both cursors are in the line still. -/
theorem Beside.advance_of_kind (h : x.Beside c d) {kind : Kind} (hkind : c.peek.kind = kind)
    (hend : kind ≠ .endOfInput) : x.Beside c.advance d.advance := by
  rcases h.cases with h | h
  · exact absurd (h.kind.symm.trans hkind) hend.symm
  · exact h.advance

theorem readItems_agrees {c d : Cursor} (h : x.Beside c d) {es : List Expr} {d' : Cursor}
    (hd : (readItems (x.line + x.down) d).Gives es d') : x.Agrees (readItems x.line c) es d' := by
  obtain ⟨e, d₁, he, hrest⟩ := readItems_gives.mp hd
  rw [readItems]
  refine (exprRead_agrees h he).andThen fun c₁ hle h₁ => ?_
  have hiff := h₁.isSeparator_iff
  by_cases hsep : c₁.peek.kind = .comma ∨ c₁.peek.kind = .semicolon
  · have hsep' : c₁.peek.IsSeparator := hsep
    have hsize := Cursor.size_advance_lt hsep'.isLegal.2
    have hadvance : x.Beside c₁.advance d₁.advance := by
      rcases hsep with hkind | hkind <;> exact h₁.advance_of_kind hkind Kind.noConfusion
    rw [dif_pos hsep, hadvance.atEndOfStatement]
    rcases hrest with ⟨hnot, _⟩ | ⟨_, hend, rfl, rfl⟩ | ⟨_, hend, es', hes, rfl⟩
    · exact absurd (hiff.mp hsep') hnot
    · rw [if_pos hend]
      exact (Agrees.ok hadvance).behindNext
    · rw [if_neg (by simp [hend])]
      exact (readItems_agrees hadvance hes).map.behindNext
  · have hsep' : ¬ c₁.peek.IsSeparator := hsep
    rw [dif_neg hsep]
    rcases hrest with ⟨_, rfl, rfl⟩ | ⟨hd₁, _⟩ | ⟨hd₁, _⟩
    · exact Agrees.ok h₁
    · exact absurd (hiff.mpr hd₁) hsep'
    · exact absurd (hiff.mpr hd₁) hsep'
termination_by c.size

variable {st : Statement} {d' : Cursor}

theorem readPrint_agrees (h : x.Beside c d) (hd : (readPrint (x.line + x.down) d).Gives st d') :
    x.Agrees (readPrint x.line c) st d' := by
  unfold readPrint at hd ⊢
  rw [h.atEndOfStatement]
  split at hd
  · rename_i hend
    obtain ⟨rfl, rfl⟩ := Reading.ok_gives.mp hd
    rw [if_pos hend]
    exact Agrees.ok h
  · rename_i hend
    obtain ⟨es, hes, rfl⟩ := Reading.map_gives.mp hd
    rw [if_neg hend]
    exact (readItems_agrees h hes).map

theorem readAssign_agrees (h : x.Beside c d) (hd : (readAssign d).Gives st d') :
    x.Agrees (readAssign c) st d' := by
  simp only [readAssign, Reading.andThen_gives, Reading.map_gives, exists_prop] at hd
  obtain ⟨v, d₁, hv, u, d₂, hequal, e, he, rfl⟩ := hd
  refine (identRead_agrees h hv).andThen fun c₁ _ h₁ => ?_
  refine (expectEqual_agrees h₁ hequal).andThen fun c₂ _ h₂ => ?_
  exact (exprRead_agrees h₂ he).map

theorem readPromptEnd_agrees (h : x.Beside c d) {u : Unit} (hd : (readPromptEnd d).Gives u d') :
    x.Agrees (readPromptEnd c) u d' := by
  obtain ⟨t, ht, rfl⟩ := readPromptEnd_gives.mp hd
  rcases h.cases with hend | htoken
  · left
    unfold readPromptEnd
    rw [if_neg (by simp [hend.kind])]
    exact breaksOff_of_atEnd hend rfl
  · have ht' : c.peek.IsSeparator := h.isSeparator_iff.mpr ht
    have hadvance := htoken.advance
    rw [Cursor.advance_prepend_cons [] ht.isLegal.2] at hadvance
    exact .of_gives (readPromptEnd_gives.mpr ⟨c.peek, ht', Cursor.eq_prepend_peek ht'.isLegal.2⟩)
      hadvance

theorem readInput_agrees (h : x.Beside c d) (hd : (readInput d).Gives st d') :
    x.Agrees (readInput c) st d' := by
  have hiff := h.kind_eq_iff .string nofun nofun nofun
  unfold readInput at hd ⊢
  by_cases hstring : c.peek.kind = .string
  · rw [if_pos (hiff.mp hstring), Reading.behindNext_gives] at hd
    simp only [Reading.andThen_gives, Reading.map_gives, exists_prop] at hd
    obtain ⟨u, d₁, hend, v, hv, rfl⟩ := hd
    rw [if_pos hstring]
    have htext : d.peek.text = c.peek.text := by
      rcases h.cases with hend | htoken
      · cases hend.kind.symm.trans hstring
      · exact htoken.text
    have hadvance := h.advance_of_kind hstring nofun
    refine Agrees.behindNext ((readPromptEnd_agrees hadvance hend).andThen fun c₁ _ h₁ => ?_)
    rw [htext]
    exact (identRead_agrees h₁ hv).map
  · rw [if_neg (mt hiff.mpr hstring)] at hd
    obtain ⟨v, hv, rfl⟩ := Reading.map_gives.mp hd
    rw [if_neg hstring]
    exact (identRead_agrees h hv).map

theorem readGoto_agrees (h : x.Beside c d) (hd : (readGoto d).Gives st d') :
    x.Agrees (readGoto c) st d' := by
  obtain ⟨t, n, ht, rfl, rfl⟩ := readGoto_gives.mp hd
  rcases h.cases with hend | htoken
  · left
    unfold readGoto
    rw [if_neg (by simp [hend.kind])]
    exact breaksOff_of_atEnd hend rfl
  · have ht' : c.peek.IsTarget n := by
      rw [Token.IsTarget, ← htoken.kind, ← htoken.text]
      exact ht
    have hadvance := htoken.advance
    rw [Cursor.advance_prepend_cons [] ht.isLegal.2] at hadvance
    exact .of_gives (readGoto_gives.mpr ⟨c.peek, n, ht', Cursor.eq_prepend_peek ht'.isLegal.2, rfl⟩)
      hadvance

theorem readStep_agrees (h : x.Beside c d) {e : Expr} (hd : (readStep d).Gives e d') :
    x.Agrees (readStep c) e d' := by
  have hiff := h.kind_eq_iff (.keyword .STEP) nofun nofun nofun
  unfold readStep at hd ⊢
  by_cases hstep : c.peek.kind = .keyword .STEP
  · rw [if_pos (hiff.mp hstep), Reading.behindNext_gives] at hd
    rw [if_pos hstep]
    exact (exprRead_agrees (h.advance_of_kind hstep nofun) hd).behindNext
  · rw [if_neg (mt hiff.mpr hstep)] at hd
    obtain ⟨rfl, rfl⟩ := Reading.ok_gives.mp hd
    rw [if_neg hstep]
    exact Agrees.ok h

theorem readLoop_agrees (h : x.Beside c d) {number : Nat} (hd : (readLoop number d).Gives st d') :
    x.Agrees (readLoop number c) st d' := by
  simp only [readLoop, Reading.andThen_gives, Reading.map_gives, exists_prop] at hd
  obtain ⟨v, d₁, hv, _, d₂, hequal, start, d₃, hstart, _, d₄, hto, limit, d₅, hlimit, step,
      hstep, rfl⟩ := hd
  refine (identRead_agrees h hv).andThen fun c₁ _ h₁ => ?_
  refine (expectEqual_agrees h₁ hequal).andThen fun c₂ _ h₂ => ?_
  refine (exprRead_agrees h₂ hstart).andThen fun c₃ _ h₃ => ?_
  refine (expectKeyword_agrees h₃ hto).andThen fun c₄ _ h₄ => ?_
  refine (exprRead_agrees h₄ hlimit).andThen fun c₅ _ h₅ => ?_
  exact (readStep_agrees h₅ hstep).map

theorem readNext_agrees (h : x.Beside c d) (hd : (readNext (x.line + x.down) d).Gives st d') :
    x.Agrees (readNext x.line c) st d' := by
  have hiff := and_congr_left' (c := (!d.atEndOfStatement (x.line + x.down)) = true)
    (h.kind_eq_iff .name nofun nofun nofun)
  unfold readNext at hd ⊢
  rw [h.atEndOfStatement]
  split at hd
  · rename_i hname
    obtain ⟨v, hv, rfl⟩ := Reading.map_gives.mp hd
    rw [if_pos (hiff.mpr hname)]
    exact (identRead_agrees h hv).map
  · rename_i hname
    obtain ⟨rfl, rfl⟩ := Reading.ok_gives.mp hd
    rw [if_neg (mt hiff.mp hname)]
    exact Agrees.ok h

theorem readRemark_agrees (h : x.Beside c d) (hd : (readRemark (x.line + x.down) d).Gives st d') :
    x.Agrees (readRemark x.line c) st d' := by
  have hiff := and_congr_left' (c := (!d.atEndOfStatement (x.line + x.down)) = true)
    (h.kind_eq_iff .string nofun nofun nofun)
  unfold readRemark at hd ⊢
  rw [h.atEndOfStatement]
  split at hd
  · rename_i hstring
    rw [Reading.behindNext_gives] at hd
    obtain ⟨rfl, rfl⟩ := Reading.ok_gives.mp hd
    rw [if_pos (hiff.mpr hstring)]
    rcases h.cases with hend | htoken
    · cases hend.kind.symm.trans (hiff.mpr hstring).1
    · rw [htoken.text]
      exact (Agrees.ok htoken.advance).behindNext
  · rename_i hstring
    obtain ⟨rfl, rfl⟩ := Reading.ok_gives.mp hd
    rw [if_neg (mt hiff.mp hstring)]
    exact Agrees.ok h

/-- There is no statement at the end of the line. -/
theorem read_breaksOff (h : x.AtEnd c d) (number : Nat) :
    x.BreaksOff (Statement.read x.line number c) := by
  rw [Statement.read]
  split
  · rename_i hkind
    cases h.kind.symm.trans hkind
  · rename_i k hkind
    cases h.kind.symm.trans hkind
  · exact ⟨_, rfl, congrArg some h.position⟩

theorem read_agrees {c d d' : Cursor} {st : Statement} {number : Nat} (h : x.Beside c d)
    (hd : (Statement.read (x.line + x.down) number d).Gives st d') :
    x.Agrees (Statement.read x.line number c) st d' := by
  rcases h.cases with hend | htoken
  · exact .inl (read_breaksOff hend number)
  · have hadvance := htoken.advance
    have hsize := Cursor.size_advance_lt htoken.kind_ne_end
    rw [Statement.read]
    split
    · rename_i hname
      exact readAssign_agrees h ((read_gives_of_name (htoken.kind.trans hname)).mp hd)
    · rename_i k hkeyword
      have hbehind := (read_gives_of_keyword (htoken.kind.trans hkeyword)).mp hd
      apply Agrees.behindNext
      cases k with
      | END =>
        obtain ⟨rfl, rfl⟩ := Reading.ok_gives.mp hbehind
        exact Agrees.ok hadvance
      | FOR => exact readLoop_agrees hadvance hbehind
      | GOTO => exact readGoto_agrees hadvance hbehind
      | INPUT => exact readInput_agrees hadvance hbehind
      | LET => exact readAssign_agrees hadvance hbehind
      | NEXT => exact readNext_agrees hadvance hbehind
      | PRINT => exact readPrint_agrees hadvance hbehind
      | REM => exact readRemark_agrees hadvance hbehind
      | STEP | THEN | TO => exact absurd hbehind Reading.error_gives
      | IF =>
        simp only [readBehind, Reading.andThen_gives, exists_prop] at hbehind
        obtain ⟨condition, d₁, hcondition, _, d₂, hthen, hbody⟩ := hbehind
        refine (exprRead_agrees hadvance hcondition).andThen fun c₁ hle₁ h₁ => ?_
        refine (expectKeyword_agrees h₁ hthen).andThen fun c₂ hle₂ h₂ => ?_
        rcases h₂.cases with hend | htoken₂
        · -- In the text the next line may begin with a number, which would be the target of a jump.
          rw [if_neg (by simp [hend.kind])]
          exact .inl (read_breaksOff hend number).map
        · rw [htoken₂.kind] at hbody
          split at hbody
          · rename_i hnumber
            obtain ⟨body, hgoto, rfl⟩ := Reading.map_gives.mp hbody
            rw [if_pos hnumber]
            exact (readGoto_agrees h₂ hgoto).map
          · rename_i hnumber
            obtain ⟨body, hread, rfl⟩ := Reading.map_gives.mp hbody
            rw [if_neg hnumber]
            exact (read_agrees h₂ hread).map
    · rename_i hname hkeyword
      refine absurd hd (not_read_gives ?_ ?_)
      · rwa [htoken.kind]
      · intro k
        rw [htoken.kind]
        exact hkeyword k
termination_by c.size

end LineInText

end LineBasic
