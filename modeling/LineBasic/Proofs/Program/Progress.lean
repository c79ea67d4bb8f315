import LineBasic.Proofs.Program.Insert
import LineBasic.Proofs.Program.Unrolled
import LineBasic.Proofs.Statement.Faults

/-!
# Reading goes forward and stops at the end

A reader that begins at some position of a list of tokens goes on to a later one, and neither the
list nor an end token in it is passed (`Reading.exists_stopsAt`). An expression takes a token at
least (`Expr.size_lt_of_read`). So what stands behind an end token makes no difference
(`Program.ofTokens_append`), and a list without an end token is read as if there were one behind it,
the places of errors apart (`Program.ofTokens_append_end`). All of this holds of any list of tokens
and from any position on, and reading comes to an end there (`Program.reading_progress`).
-/

namespace LineBasic

/-! ## Positions -/

namespace Cursor

variable {tokens : List Token} {i j : Nat} {d : Cursor}

theorem size_atPosition (tokens : List Token) (i : Nat) :
    (atPosition tokens i).size = tokens.length - i :=
  List.length_drop

theorem getElem?_of_peek (h : (atPosition tokens j).peek.kind ≠ .endOfInput) :
    tokens[j]? = some (atPosition tokens j).peek := by
  rw [← List.head?_drop]
  have hpeek : (atPosition tokens j).peek = (tokens.drop j).headD (.endAt (ofTokens tokens).stop) :=
    rfl
  rw [hpeek] at h ⊢
  cases hdrop : tokens.drop j with
  | nil =>
    rw [hdrop] at h
    exact absurd rfl h
  | cons t ts => rfl

theorem advance_atPosition (h : (atPosition tokens j).peek.kind ≠ .endOfInput) :
    (atPosition tokens j).advance = atPosition tokens (j + 1) := by
  have hend : ¬ (atPosition tokens j).peek.isEnd = true := by simpa [Token.isEnd] using h
  rw [advance, if_neg hend]
  simp [atPosition]

/-- Going on from a position leads to later ones, up to the end of the list or to the first end
token. -/
theorem Reaches.exists_atPosition (h : (atPosition tokens i).Reaches d) (hi : i ≤ tokens.length) :
    ∃ j, d = atPosition tokens j ∧ i ≤ j ∧ j ≤ tokens.length ∧
      ∀ k t, i ≤ k → tokens[k]? = some t → t.kind = .endOfInput → j ≤ k := by
  induction h with
  | refl => exact ⟨i, rfl, Nat.le_refl i, hi, fun k t hk _ _ => hk⟩
  | advance _ ih =>
    obtain ⟨j, rfl, hij, hj, hend⟩ := ih
    by_cases hkind : (atPosition tokens j).peek.kind = .endOfInput
    · exact ⟨j, advance_of_end hkind, hij, hj, hend⟩
    · have hget := getElem?_of_peek hkind
      obtain ⟨hlt, -⟩ := List.getElem?_eq_some_iff.mp hget
      refine ⟨j + 1, advance_atPosition hkind, by omega, hlt, fun k t hk ht hstop => ?_⟩
      have hle := hend k t hk ht hstop
      -- The token that was taken is none of the end tokens.
      have hne : j ≠ k := by
        rintro rfl
        rw [Option.some.inj (hget.symm.trans ht)] at hkind
        exact hkind hstop
      omega

end Cursor

namespace Reading

variable {tokens : List Token} {i : Nat} {α : Type}

/-- A reader that began at the position `i` of a list of tokens stopped at `j`. That is not before
`i`, not behind the list, and not behind an end token at `i` or further on. -/
structure StopsAt (r : Reading α (.atPosition tokens i)) (j : Nat) : Prop where
  rest_eq : r.rest = .atPosition tokens j
  start_le : i ≤ j
  le_length : j ≤ tokens.length
  le_end : ∀ k t, i ≤ k → tokens[k]? = some t → t.kind = .endOfInput → j ≤ k

theorem exists_stopsAt {r : Reading α (.atPosition tokens i)} (h : r.Along (.atPosition tokens i))
    (hi : i ≤ tokens.length) : ∃ j, r.StopsAt j := by
  obtain ⟨j, hrest, hij, hj, hend⟩ := h.rest.exists_atPosition hi
  exact ⟨j, hrest, hij, hj, hend⟩

end Reading

namespace Expr

variable {c d : Cursor} {e : Expr}

theorem size_lt_of_readOperand (h : (readOperand c).Gives e d) : d.size < c.size := by
  have hend : c.peek.kind ≠ .endOfInput := by
    intro hend
    exact not_readOperand_gives (by simp [hend]) h
  rw [readOperand_eq, Reading.behindNext_gives] at h
  exact Nat.lt_of_le_of_lt h.size_le (Cursor.size_advance_lt hend)

/-- An expression takes a token at least. -/
theorem size_lt_of_read (h : (read c).Gives e d) : d.size < c.size := by
  obtain ⟨left, c', hoperand, hmore⟩ := readAt_gives.mp h
  exact Nat.lt_of_le_of_lt hmore.size_le (size_lt_of_readOperand hoperand)

end Expr

/-! ## The first end token -/

namespace Likeness

/-- Every token is like itself. -/
def same : Likeness where
  token t u := u = t
  error e e' := e' = e
  kind_eq h := congrArg Token.kind h
  line_eq h _ := congrArg Token.line h
  name_eq h _ := by rw [h]
  text_eq h _ := congrArg Token.text h
  error_of_token h _ _ _ := by rw [h]
  illegalError h _ := congrArg Token.illegalError h

theorem Results.eq_of_same {α : Type} {a b : Except Error α} (h : same.Results a b) : a = b := by
  cases h with
  | ok _ => rfl
  | error h => exact congrArg Except.error (Eq.symm h)

/-- End tokens are alike wherever they stand, and any other token is like itself. -/
def upToEnds : Likeness where
  token t u := u = t ∨ t.kind = .endOfInput ∧ u.kind = .endOfInput
  error e e' := e'.code = e.code
  kind_eq h := h.elim (congrArg Token.kind) fun h => h.2.trans h.1.symm
  line_eq h hend := h.elim (congrArg Token.line) fun h => absurd h.1 hend
  name_eq h hname := h.elim (fun h => by rw [h]) fun h => by simp [h.1] at hname
  text_eq h hkind := h.elim (congrArg Token.text) fun h => by simp [h.1] at hkind
  error_of_token _ _ _ _ := rfl
  illegalError h hkind := h.elim (fun h => by rw [h]) fun h => by simp [h.1] at hkind

end Likeness

namespace Program

variable {stop : Token}

/-- What stands behind an end token makes no difference, illegal tokens apart. -/
theorem ofTokens_append (tokens : List Token) (hstop : stop.kind = .endOfInput) {more : List Token}
    (hmore : ∀ t ∈ more, t.kind ≠ .illegal) :
    ofTokens (tokens ++ [stop] ++ more) = ofTokens (tokens ++ [stop]) := by
  have hcursors : Likeness.same.Cursors (.ofTokens (tokens ++ [stop] ++ more))
      (.ofTokens (tokens ++ [stop])) := by
    rw [List.append_assoc]
    exact Likeness.Cursors.prepend (c := ⟨stop :: more, _⟩) (d := ⟨[stop], _⟩) (.stop hstop rfl)
      (List.forall₂_same.mpr fun _ _ => rfl)
  have hfind : (tokens ++ [stop] ++ more).find? (·.kind = .illegal) =
      (tokens ++ [stop]).find? (·.kind = .illegal) := by
    have hnone : more.find? (·.kind = .illegal) = none := by simpa using hmore
    rw [List.find?_append, hnone, Option.or_none]
  refine (Likeness.ofTokens hcursors ?_).eq_of_same
  rw [hfind]
  exact Likeness.find?_illegal (List.forall₂_same.mpr fun _ _ => rfl)

/-- A list of tokens is read as if an end token stood behind it, but for the places of errors. -/
theorem ofTokens_append_end (tokens : List Token) (hstop : stop.kind = .endOfInput) :
    Likeness.upToEnds.Results (ofTokens tokens) (ofTokens (tokens ++ [stop])) := by
  have hcursors : Likeness.upToEnds.Cursors (.ofTokens tokens) (.ofTokens (tokens ++ [stop])) := by
    have hnil : Cursor.ofTokens tokens =
        Cursor.prepend tokens ⟨[], (Cursor.ofTokens tokens).stop⟩ := by
      simp [Cursor.prepend, Cursor.ofTokens]
    rw [hnil]
    exact Likeness.Cursors.prepend (x := .upToEnds) (d := ⟨[stop], _⟩)
      (.stop rfl (.inr ⟨rfl, hstop⟩)) (List.forall₂_same.mpr fun _ _ => .inl rfl)
  have hfind : (tokens ++ [stop]).find? (·.kind = .illegal) = tokens.find? (·.kind = .illegal) := by
    have hnone : [stop].find? (·.kind = .illegal) = none := by simp [hstop]
    rw [List.find?_append, hnone, Option.or_none]
  refine Likeness.ofTokens hcursors ?_
  rw [hfind]
  exact Likeness.find?_illegal (List.forall₂_same.mpr fun _ _ => .inl rfl)

/-- Reading goes forward and is cut off at the first end token, whatever the tokens are. From any
position of a list of tokens on, an expression and a program are read in no more rounds of calls
than three for each token that is left and three more. Both stop at a position that is not before
the first, not behind the list and not behind an end token there, and an expression that was read
took a token at least. What stands behind an end token makes no difference to a program, unless it
is illegal. Without an end token the same program is read as with one, or an error of the same code
is met. -/
theorem reading_progress {tokens : List Token} {i : Nat} (hi : i ≤ tokens.length) (p : Program)
    (hstop : stop.kind = .endOfInput) {more : List Token} (hmore : ∀ t ∈ more, t.kind ≠ .illegal) :
    (∀ (r : Readers) (n : Nat), 3 * (tokens.length - i) + 3 ≤ n →
      (Readers.round^[n] r).readAt 0 (.atPosition tokens i) = Expr.read (.atPosition tokens i) ∧
        (Readers.round^[n] r).readProgram p (.atPosition tokens i) =
          p.read (.atPosition tokens i)) ∧
    (∃ j, (Expr.read (.atPosition tokens i)).StopsAt j ∧
      ∀ e, (Expr.read (.atPosition tokens i)).result = .ok e → i < j) ∧
    (∃ j, (p.read (.atPosition tokens i)).StopsAt j) ∧
    ofTokens (tokens ++ [stop] ++ more) = ofTokens (tokens ++ [stop]) ∧
    ((∃ q, ofTokens tokens = .ok q ∧ ofTokens (tokens ++ [stop]) = .ok q) ∨
      ∃ e e', ofTokens tokens = .error e ∧ ofTokens (tokens ++ [stop]) = .error e' ∧
        e'.code = e.code) := by
  refine ⟨fun r n hn => ?_, ?_, ?_, ofTokens_append tokens hstop hmore, ?_⟩
  · rw [← Cursor.size_atPosition] at hn
    have hagree := r.agree_iterate_round n
    exact ⟨hagree.readAt 0 _ (by omega), hagree.readProgram p _ hn⟩
  · obtain ⟨j, hj⟩ := Reading.exists_stopsAt (Expr.read_along .refl) hi
    refine ⟨j, hj, fun e he => ?_⟩
    have hlt := Expr.size_lt_of_read ⟨he, hj.rest_eq⟩
    rw [Cursor.size_atPosition, Cursor.size_atPosition] at hlt
    omega
  · exact Reading.exists_stopsAt (read_along p _ .refl) hi
  · have hresults := ofTokens_append_end tokens hstop
    generalize ofTokens tokens = a, ofTokens (tokens ++ [stop]) = b at hresults
    cases hresults with
    | ok q => exact .inl ⟨q, rfl, rfl⟩
    | error he => exact .inr ⟨_, _, rfl, rfl, he⟩

/-- A line without an end token. -/
def printA : List Token :=
  [⟨.lineNumber, "10", ⟨1, 1⟩⟩, ⟨.keyword .PRINT, "PRINT", ⟨1, 4⟩⟩, ⟨.name, "A", ⟨1, 10⟩⟩]

/-- What would go on with the line, if no end token stood before it. -/
def plusB : List Token :=
  [⟨.operator .add, "+", ⟨1, 12⟩⟩, ⟨.name, "B", ⟨1, 14⟩⟩]

theorem reading_progress_printA :
    let stop := Token.endAt ⟨1, 11⟩
    let c := Cursor.atPosition (printA ++ [stop] ++ plusB) 2
    (2 ≤ (printA ++ [stop] ++ plusB).length ∧ stop.kind = .endOfInput ∧
      ∀ t ∈ plusB, t.kind ≠ .illegal) ∧
      ((∀ r : Readers, (Readers.round^[15] r).readAt 0 c = Expr.read c) ∧
        (Expr.read c).result = .ok (.var ⟨"A"⟩) ∧
        (Expr.read c).StopsAt 3) ∧
      ofTokens (printA ++ [stop] ++ plusB) = ofTokens (printA ++ [stop]) ∧
      ∃ q, ofTokens printA = .ok q ∧ ofTokens (printA ++ [stop]) = .ok q := by
  intro stop c
  have hi : 2 ≤ (printA ++ [stop] ++ plusB).length := by decide
  have hstop : stop.kind = .endOfInput := rfl
  have hmore : ∀ t ∈ plusB, t.kind ≠ .illegal := by decide
  have hread : (Expr.read c).result = .ok (.var ⟨"A"⟩) := by
    have hupper : "A".toUpper = "A" := by decide +kernel
    have hname : Expr.ofName (.ofText "A") = .var ⟨"A"⟩ := by
      rw [Expr.ofName_of_not_builtin, hupper]
      intro f
      rw [hupper]
      cases f <;> decide
    have hoperand : (Expr.readOperand c).Gives (.var ⟨"A"⟩) c.advance :=
      (Expr.readOperand_gives_of_name rfl (by decide)).mpr ⟨hname, rfl⟩
    have hstops : Expr.Stops 0 c.advance := by
      have hkind : c.advance.peek.kind = .endOfInput := rfl
      exact Expr.stops_of_kind hkind (by simp)
    have hself := Expr.readMore_gives_self (.var ⟨"A"⟩) hstops
    exact (Expr.readAt_gives.mpr ⟨_, _, hoperand, hself⟩).1
  have hprogram : (ofTokens printA).toOption.isSome = true := by decide +kernel
  obtain ⟨hrounds, ⟨j, hj, hlt⟩, -⟩ := reading_progress hi .empty hstop hmore
  obtain ⟨-, -, -, hcut, hend⟩ := reading_progress (Nat.zero_le printA.length) .empty hstop hmore
  -- The end token stands right behind the name.
  obtain rfl : j = 3 := Nat.le_antisymm (hj.le_end 3 stop (by decide) rfl rfl) (hlt _ hread)
  refine ⟨⟨hi, hstop, hmore⟩, ⟨fun r => (hrounds r 15 (by decide)).1, hread, hj⟩, hcut, ?_⟩
  rcases hend with hok | ⟨e, _, he, -⟩
  · exact hok
  · rw [he] at hprogram
    cases hprogram

end Program

end LineBasic
