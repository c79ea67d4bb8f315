import LineBasic.Proofs.Program.Trimmed
import LineBasic.Proofs.Token.Spelled

/-!
# Texts of one line

A text without newlines is the program of one statement exactly if its tokens are a number and a
statement of the grammar, and one that has tokens but no such derivation is refused
(`Program.ofSource_eq_single_iff`). The number is written in digits alone, which a source can do in
one way only (`Token.isTarget_iff_isNumeral`).
-/

namespace LineBasic

/-- A token that writes `n` in digits alone, where `n` can be the number of a program line. -/
structure Token.IsNumeral (t : Token) (n : Nat) : Prop where
  kind : t.kind = .number ∨ t.kind = .lineNumber
  digits : ∀ c ∈ t.text.toList, c.isDigit = true
  ne_empty : t.text ≠ ""
  value : Nat.ofDigitChars 10 t.text.toList 0 = n
  one_le : 1 ≤ n
  le_max : n ≤ 99999

/-- No number in a source has a sign, so a line number is written in digits alone. -/
theorem Token.isTarget_iff_isNumeral {source : String} {t : Token} (ht : t ∈ scan source)
    {n : Nat} : t.IsTarget n ↔ t.IsNumeral n := by
  have hplus (hkind : t.kind = .number ∨ t.kind = .lineNumber) : '+' ∉ t.text.toList := by
    intro hmem
    rcases isDigit_or_point source t ht hkind '+' hmem with hc | hc <;> cases hc
  constructor
  · intro ⟨hkind, hnumber⟩
    obtain ⟨hne, hdigits, hvalue, hline⟩ := (lineNumberOf?_eq_some_iff (hplus hkind)).mp hnumber
    obtain ⟨hone, hmax⟩ := isLineNumber_iff.mp hline
    exact ⟨hkind, hdigits, hne, hvalue, hone, hmax⟩
  · intro ⟨hkind, hdigits, hne, hvalue, hone, hmax⟩
    have hline : isLineNumber n = true := isLineNumber_iff.mpr ⟨hone, hmax⟩
    exact ⟨hkind, (lineNumberOf?_eq_some_iff (hplus hkind)).mpr ⟨hne, hdigits, hvalue, hline⟩⟩

namespace Program

theorem single_ne_empty (n : Nat) (st : Statement) : single n st ≠ .empty := by
  intro h
  have hnumbers := congrArg lineNumbers h
  rw [lineNumbers_single, lineNumbers_empty] at hnumbers
  cases hnumbers

theorem single_inj {n m : Nat} {st st' : Statement} (h : single n st = single m st') :
    n = m ∧ st = st' :=
  get?_single.mp (h ▸ get?_single.mpr ⟨rfl, rfl⟩)

/-- A text of one line makes a program of one statement exactly if its tokens are a number and that
statement. -/
theorem ofSource_eq_single_iff_derives {line : String} (hnewline : '\n' ∉ line.toList) {n : Nat}
    {st : Statement} :
    ofSource line = .ok (single n st) ↔
      ∃ t ts, Token.body line = t :: ts ∧ t.IsTarget n ∧ Statement.Derives n ts st := by
  constructor
  · intro h
    rcases derivesLine_iff.mp (isProgramLine_of_ofSource hnewline h).derives with
      ⟨-, hempty⟩ | ⟨t, ts, m, st', hbody, ht, hderives, hsingle⟩
    · exact absurd hempty (single_ne_empty n st)
    · obtain ⟨rfl, rfl⟩ := single_inj hsingle
      exact ⟨t, ts, hbody, ht, hderives⟩
  · intro ⟨t, ts, hbody, ht, hderives⟩
    apply ofSource_of_derivesLine hnewline
    · rw [hbody]
      exact List.forall_mem_cons.mpr ⟨ht.isLegal.1, fun u hu => (hderives.isLegal u hu).1⟩
    · rw [hbody]
      exact .line ht hderives

/-- A text of one line is the program of one statement exactly if its tokens are a number, written
in digits, and a statement of the grammar. Loops carry the number, and jumps name numbers of the
same form. A text that has tokens and no such derivation is refused. -/
theorem ofSource_eq_single_iff (line : String) (hnewline : '\n' ∉ line.toList) :
    (∀ n st, ofSource line = .ok (single n st) ↔
      ∃ t ts, Token.body line = t :: ts ∧ t.IsNumeral n ∧ Statement.Derives n ts st) ∧
    (∀ t ∈ Token.body line, ∀ n, t.IsTarget n ↔ t.IsNumeral n) ∧
    (Token.body line ≠ [] →
      (¬ ∃ n st t ts, Token.body line = t :: ts ∧ t.IsNumeral n ∧ Statement.Derives n ts st) →
      ∃ e, ofSource line = .error e) := by
  have hnumeral : ∀ t ∈ Token.body line, ∀ n, t.IsTarget n ↔ t.IsNumeral n :=
    fun t ht n => Token.isTarget_iff_isNumeral (Token.mem_scan_of_mem_body ht)
  have hsingle : ∀ n st, ofSource line = .ok (single n st) ↔
      ∃ t ts, Token.body line = t :: ts ∧ t.IsNumeral n ∧ Statement.Derives n ts st := by
    intro n st
    rw [ofSource_eq_single_iff_derives hnewline]
    constructor
    · intro ⟨t, ts, hbody, ht, hderives⟩
      exact ⟨t, ts, hbody, (hnumeral t (hbody ▸ List.mem_cons_self) n).mp ht, hderives⟩
    · intro ⟨t, ts, hbody, ht, hderives⟩
      exact ⟨t, ts, hbody, (hnumeral t (hbody ▸ List.mem_cons_self) n).mpr ht, hderives⟩
  refine ⟨hsingle, hnumeral, ?_⟩
  intro htokens hnone
  cases hsource : ofSource line with
  | error e => exact ⟨e, rfl⟩
  | ok p =>
    -- A program of one line that is not empty has one statement, so there is a derivation after
    -- all.
    rcases derivesLine_iff.mp (isProgramLine_of_ofSource hnewline hsource).derives with
      ⟨hbody, -⟩ | ⟨t, ts, n, st, -, -, -, rfl⟩
    · exact absurd hbody htokens
    · exact absurd ⟨n, st, (hsingle n st).mp hsource⟩ hnone

theorem ofSource_eq_single_iff_nestedLoop :
    (∃ t ts, Token.body "10 IF A THEN FOR I=A TO B" = t :: ts ∧ t.IsNumeral 10 ∧
      Statement.Derives 10 ts
        (.cond (.var ⟨"A"⟩) (.loop ⟨"I"⟩ (.var ⟨"A"⟩) (.var ⟨"B"⟩) (.number 1) 10))) ∧
    ∃ e, ofSource "END 10" = .error e := by
  constructor
  · obtain ⟨hsingle, -, -⟩ := ofSource_eq_single_iff "10 IF A THEN FOR I=A TO B" (by decide)
    exact (hsingle _ _).mp (by with_unfolding_all rfl)
  · obtain ⟨-, -, hrefused⟩ := ofSource_eq_single_iff "END 10" (by decide)
    have hbody : Token.body "END 10" =
        [⟨.keyword .END, "END", ⟨1, 1⟩⟩, ⟨.number, "10", ⟨1, 5⟩⟩] := by with_unfolding_all rfl
    refine hrefused (by simp [hbody]) ?_
    rintro ⟨n, st, t, ts, htokens, ht, -⟩
    obtain ⟨rfl, -⟩ := List.cons.inj (hbody.symm.trans htokens)
    rcases ht.kind with hkind | hkind <;> cases hkind

end Program

end LineBasic
