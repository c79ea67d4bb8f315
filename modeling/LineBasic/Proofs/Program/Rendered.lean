import LineBasic.Proofs.Program.WellFormed
import LineBasic.Proofs.Statement.Written

/-!
# Rendered lines are read back

A trace shows the number of a line and its statement as it is rendered. If nothing of the statement
is left out, that is a source text for the line: read by itself it gives the statement under the
number (`Program.ofSource_render`).
-/

namespace LineBasic

theorem Piece.not_illegal_of_mem_tokens {remark : Bool} {ps : List Piece} (h : Legible remark ps)
    (p : Position) : ∀ t ∈ tokens p ps, t.kind ≠ .illegal := by
  induction h generalizing p with
  | nil => exact List.forall_mem_nil _
  | blank _ ih => exact ih _
  | @word kind text ps hform _ _ ih =>
    refine List.forall_mem_cons.mpr ⟨?_, ih _⟩
    rintro (rfl : kind = .illegal)
    exact hform
  | remark _ => exact List.forall_mem_singleton.mpr Kind.noConfusion

/-- The tokens of a number and of pieces behind a blank. -/
theorem Token.exists_scan_numbered {ps : List Piece} (h : Piece.Legible false ps) (n : Nat) :
    ∃ kind position stop, (kind = .number ∨ kind = .lineNumber) ∧ position.line = 1 ∧
      scan (n.repr ++ " " ++ String.ofList (Piece.spell ps)) =
        ⟨kind, n.repr, .start⟩ :: (Piece.tokens position ps ++ [.endAt stop]) := by
  have hrest : (Scanner.ofString (n.repr ++ " " ++ String.ofList (Piece.spell ps))).rest =
      n.repr.toList ++ Piece.spell (.blank :: ps) := by
    simp [Scanner.ofString, Piece.source]
  obtain ⟨kind, hkind, hnext⟩ :=
    Scanner.next_of_number rfl hrest (Statement.form_repr n) (Piece.delimited_blank ps)
  have hend : kind ≠ .endOfInput := by
    rintro rfl
    rcases hkind with hkind | hkind <;> cases hkind
  have hdigits : '\n' ∉ n.repr.toList ++ [' '] := by
    rw [Nat.toList_repr]
    refine List.not_mem_append (fun hmem => ?_) (by decide)
    exact Bool.noConfusion (Nat.isDigit_of_mem_toDigits (by decide) (by decide) hmem)
  refine ⟨kind, Position.start.after (n.repr.toList ++ [' ']),
    (Position.start.after n.repr.toList).after (Piece.spell (.blank :: ps)), hkind, ?_, ?_⟩
  · exact Statement.line_after_of_not_mem hdigits .start
  · rw [scan, Scanner.tokens_of_ne_end (by rw [hnext]; exact hend), hnext,
      Scanner.tokens_spell rfl rfl h.blank, Position.after_append]
    rfl

namespace Program

variable {p : Program} {n : Nat} {st : Statement}

/-- A statement of a program that was read begins on the line of its number. -/
theorem isReadable_of_ofSource {source : String} (hsource : ofSource source = .ok p)
    (hget : p.get? n = some st) : isLineNumber n = true ∧ st.IsReadable n True := by
  obtain ⟨c, d, hsuffix, ht, hread⟩ := exists_read_of_ofSource hsource hget
  have hpeek := Cursor.eq_prepend_peek ht.isLegal.2
  have hchain : (c.peek :: c.advance.tokens).IsChain Token.Follows := by
    have htokens : c.tokens = c.peek :: c.advance.tokens := congrArg Cursor.tokens hpeek
    rw [← htokens]
    exact (Token.isChain_scan source).suffix hsuffix
  have hrem : c.peek.kind ≠ .keyword .REM := by
    rcases ht.1 with hkind | hkind <;> simp [hkind]
  have hline : c.advance.FromLine c.peek.line := ⟨c.peek, hchain, hrem, Nat.le_add_right _ _⟩
  exact ⟨ht.isLineNumber, (Statement.isReadable_of_read hline (Nat.le_refl _) hread).mono fun _ =>
    trivial⟩

/-- A line of a program that was read, rendered behind its number, is read as that line alone, if
nothing is left out: every expression is a number, a text or a variable, or has only these as
operands; numbers are written without an exponent; and no empty parentheses are missing. -/
theorem ofSource_render {source : String} (hsource : ofSource source = .ok p)
    (hget : p.get? n = some st) (hshows : ∀ e ∈ st.exprs, e.Shows) :
    ofSource (n.repr ++ " " ++ st.render) = .ok (single n st) := by
  obtain ⟨hn, hreadable⟩ := isReadable_of_ofSource hsource hget
  obtain ⟨ps, hps⟩ := Statement.exists_isWritten hreadable hshows
  obtain ⟨kind, position, stop, hkind, hline, hscan⟩ := Token.exists_scan_numbered hps.legible n
  have hrender : String.ofList (Piece.spell ps) = st.render := by
    rw [hps.spell_eq, String.ofList_toList]
  rw [hrender] at hscan
  have hlegal : ∀ t ∈ Token.scan (n.repr ++ " " ++ st.render), t.kind ≠ .illegal := by
    rw [hscan]
    refine List.forall_mem_cons.mpr ⟨?_, List.forall_mem_append.mpr
      ⟨Piece.not_illegal_of_mem_tokens hps.legible position,
        List.forall_mem_singleton.mpr Kind.noConfusion⟩⟩
    rcases hkind with rfl | rfl <;> exact Kind.noConfusion
  obtain ⟨d, hcursor, hd, -⟩ :=
    cursor_ofTokens (⟨kind, n.repr, .start⟩ :: Piece.tokens position ps) stop
  have ht : (⟨kind, n.repr, .start⟩ : Token).IsTarget n := Statement.isTarget_repr hn hkind .start
  have hread : (Statement.read 1 n (d.prepend (Piece.tokens position ps))).Gives st d :=
    hps.read_gives hd fun _ => hline
  rw [ofSource, ofTokens_of_not_illegal hlegal, hscan, ← List.cons_append, hcursor,
    readLines_of_gives (c := d.prepend (⟨kind, n.repr, .start⟩ :: Piece.tokens position ps))
      (d := d) ht (by rw [Cursor.advance_prepend_cons _ ht.isLegal.2]; exact hread)
        (Cursor.Ends.atEndOfStatement (.inl hd)),
    insert_empty st hn]
  exact readLines_of_end hd

/-- A line where the source leaves out what is rendered: the zero before a sign, blanks and the
step. -/
def signedLoop : Statement :=
  .cond (.binary .notEqual (.var ⟨"A$"⟩) (.text ""))
    (.loop ⟨"I"⟩ (.binary .subtract (.number 0) (.var ⟨"A"⟩)) (.call ⟨"LEN"⟩ [.var ⟨"B$"⟩])
      (.number 1) 10)

theorem shows_signedLoop : ∀ e ∈ signedLoop.exprs, e.Shows := by
  have hzero : Number.IsPlain 0 := .inl (by decide +kernel)
  have hone : Number.IsPlain 1 := .inr ⟨by decide +kernel, by decide +kernel⟩
  simp only [signedLoop, Statement.exprs, List.forall_mem_cons]
  refine ⟨⟨?_, ?_, ?_⟩, ⟨?_, ?_, ?_⟩, ⟨?_, ?_, ?_⟩, ⟨?_, ?_, ?_⟩, List.forall_mem_nil _⟩
  all_goals simp [Expr.operands, Expr.IsAtom, hzero, hone]

theorem ofSource_render_signedLoop :
    ofSource "10 IF A$<>\"\" THEN FOR I=-A TO LEN(B$)" = .ok (single 10 signedLoop) ∧
      ofSource "10 IF A$ <> \"\" THEN FOR I = 0 - A TO LEN(B$) STEP 1" =
        .ok (single 10 signedLoop) := by
  have hsource : ofSource "10 IF A$<>\"\" THEN FOR I=-A TO LEN(B$)" =
      .ok (single 10 signedLoop) := by with_unfolding_all rfl
  have hrender : signedLoop.render = "IF A$ <> \"\" THEN FOR I = 0 - A TO LEN(B$) STEP 1" := by
    decide +kernel
  have hread := ofSource_render hsource (get?_single.mpr ⟨rfl, rfl⟩) shows_signedLoop
  rw [hrender] at hread
  exact ⟨hsource, hread⟩

end Program

end LineBasic
