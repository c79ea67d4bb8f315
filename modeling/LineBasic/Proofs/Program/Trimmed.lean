import LineBasic.Proofs.Program.Lines
import LineBasic.Proofs.Token.Blanks

/-!
# Programs of lines without the blanks around them

Whether a text of one line makes a program, and which one, depends only on the kinds and texts of
its tokens (`Program.ofSource_of_body_eq`). So it makes the same program with a carriage return at
its end, and without the blanks at both ends (`Program.ofSource_trimmed`).
-/

namespace LineBasic

/-- A line without the blanks at both ends. -/
def Text.trimmed (line : String) : String :=
  String.ofList (trimStart (trimEnd line.toList))

theorem Text.mem_of_mem_trimmed {line : String} {c : Char} (h : c ∈ (trimmed line).toList) :
    c ∈ line.toList := by
  rw [trimmed, String.toList_ofList] at h
  exact (List.rdropWhile_prefix isBlank line.toList).subset
    ((List.dropWhile_suffix isBlank).subset h)

theorem Token.keepsText_id : KeepsText id :=
  ⟨fun _ => rfl, fun _ => rfl⟩

theorem Token.keepsText_move (f : Position → Position) : KeepsText (move f) :=
  ⟨fun _ => rfl, fun _ => rfl⟩

namespace Program

variable {p : Program} {l l' : String}

theorem DerivesLine.map {ts : List Token} {f : Token → Token} (hf : Token.KeepsText f)
    (h : DerivesLine ts p) : DerivesLine (ts.map f) p := by
  cases h with
  | blank => exact .blank
  | line ht h => exact .line (ht.map hf) (h.map hf)

/-- A text of one line makes the program that its tokens derive. -/
theorem ofSource_of_derivesLine (hnewline : '\n' ∉ l.toList)
    (hlegal : ∀ t ∈ Token.body l, t.kind ≠ .illegal) (h : DerivesLine (Token.body l) p) :
    ofSource l = .ok p := by
  obtain ⟨hscan, hend⟩ := Token.exists_scan_eq l
  have hillegal : ∀ t ∈ Token.scan l, t.kind ≠ .illegal := by
    rw [hscan]
    exact List.forall_mem_append.mpr ⟨hlegal, List.forall_mem_singleton.mpr Kind.noConfusion⟩
  obtain ⟨d, hcursor, hd, -⟩ := cursor_ofTokens (Token.body l) (.behind l.toList)
  rw [ofSource, ofTokens_of_not_illegal hillegal, hscan, hcursor]
  have hline : ∀ t ∈ Token.body l, t.line = 1 := fun t ht => Token.line_of_mem_body hnewline ht
  have hkind : ∀ t ∈ (Token.body l).tail, t.kind ≠ .lineNumber :=
    fun t ht => Token.kind_ne_lineNumber_of_mem_tail hnewline ht
  rcases derivesLine_iff.mp h with ⟨hbody, rfl⟩ | ⟨t, ts, n, st, hbody, ht, hderives, rfl⟩
  · rw [hbody]
    exact readLines_of_end hd
  · rw [hbody] at hline hkind hend ⊢
    obtain ⟨hone, hts⟩ := List.forall_mem_cons.mp hline
    have hon : Token.OnLine t.line ts := by
      intro u hu
      exact ⟨hkind u hu, hend u (List.mem_cons_of_mem t hu), (hts u hu).trans hone.symm⟩
    have hinsert := insert_empty st ht.isLineNumber
    rw [readLines_line ht hderives hon (.inl hd), hinsert]
    exact readLines_of_end hd

/-- Lines whose tokens have the same kinds and texts make the same program. -/
theorem ofSource_of_body_eq {f : Token → Token} (hf : Token.KeepsText f)
    (hnewline : '\n' ∉ l.toList) (hnewline' : '\n' ∉ l'.toList)
    (hbody : Token.body l' = (Token.body l).map f) (h : ofSource l = .ok p) :
    ofSource l' = .ok p := by
  apply ofSource_of_derivesLine hnewline'
  · intro t ht
    rw [hbody] at ht
    obtain ⟨u, hu, rfl⟩ := List.mem_map.mp ht
    rw [hf.kind]
    exact not_illegal_of_ofSource h u (Token.mem_scan_of_mem_body hu)
  · rw [hbody]
    exact (isProgramLine_of_ofSource hnewline h).derives.map hf

/-- A line makes the same program with spaces at its end. -/
theorem ofSource_append_spaces {spaces : List Char} (hl : l'.toList = l.toList ++ spaces)
    (hnewline : '\n' ∉ l'.toList) (hspaces : ∀ c ∈ spaces, isSpace c = true)
    (h : ofSource l = .ok p) : ofSource l' = .ok p := by
  have hblanks : ∀ c ∈ spaces, Text.isBlank c = true :=
    fun c hc => (Scanner.isBlank_of_isSpace (hspaces c hc)).1
  have hbody :=
    Token.body_append_blanks hl hnewline hblanks (.inr ⟨not_illegal_of_ofSource h, hspaces⟩)
  have hnewline' : '\n' ∉ l.toList := fun hmem => hnewline (hl ▸ List.mem_append_left spaces hmem)
  exact ofSource_of_body_eq Token.keepsText_id hnewline' hnewline (by rw [hbody, List.map_id]) h

/-- A line makes the same program without the blanks at its end. -/
theorem ofSource_of_append_blanks {blanks : List Char} (hl : l'.toList = l.toList ++ blanks)
    (hnewline : '\n' ∉ l'.toList) (hblanks : ∀ c ∈ blanks, Text.isBlank c = true)
    (h : ofSource l' = .ok p) : ofSource l = .ok p := by
  have hbody := Token.body_append_blanks hl hnewline hblanks (.inl (not_illegal_of_ofSource h))
  have hnewline' : '\n' ∉ l.toList := fun hmem => hnewline (hl ▸ List.mem_append_left blanks hmem)
  exact ofSource_of_body_eq Token.keepsText_id hnewline hnewline' (by rw [hbody, List.map_id]) h

/-- A line makes the same program without the blanks at its beginning. -/
theorem ofSource_of_blanks_append {blanks : List Char} (hl : l'.toList = blanks ++ l.toList)
    (hnewline : '\n' ∉ l'.toList) (hblanks : ∀ c ∈ blanks, Text.isBlank c = true)
    (h : ofSource l' = .ok p) : ofSource l = .ok p := by
  have hlegal : ({ rest := blanks ++ l.toList } : Scanner).Legal := by
    rw [← hl]
    exact not_illegal_of_ofSource h
  have hinLine : BlankInLine blanks :=
    blankInLine_of_isBlank hblanks fun hmem => hnewline (hl ▸ List.mem_append_left _ hmem)
  have hnewline' : '\n' ∉ l.toList := fun hmem => hnewline (hl ▸ List.mem_append_right blanks hmem)
  have hbody := Token.body_spaces_append hl (Scanner.isSpace_of_legal hinLine hlegal) hnewline'
  -- Moving the tokens back to the left gives those of the line without the blanks.
  have hback : Token.move (fun q => ⟨q.line, q.column - blanks.length⟩) ∘
      Token.move (.right blanks.length) = id := by
    funext t
    simp [Token.move, Position.right]
  refine ofSource_of_body_eq (Token.keepsText_move fun q =>
    ⟨q.line, q.column - blanks.length⟩) hnewline hnewline' ?_ h
  rw [hbody, List.map_map, hback, List.map_id]

/-- A line makes the same program without the blanks at both ends. -/
theorem ofSource_trimmed (hnewline : '\n' ∉ l.toList) (h : ofSource l = .ok p) :
    ofSource (Text.trimmed l) = .ok p := by
  obtain ⟨blanks, hend, hblanks⟩ := Scanner.exists_trimEnd_append l.toList
  have hl : l.toList = (String.ofList (Text.trimEnd l.toList)).toList ++ blanks := by
    rw [String.toList_ofList]
    exact hend
  have hleft := ofSource_of_append_blanks hl hnewline hblanks h
  have hstart : (String.ofList (Text.trimEnd l.toList)).toList =
      (Text.trimEnd l.toList).takeWhile Text.isBlank ++ (Text.trimmed l).toList := by
    rw [String.toList_ofList, Text.trimmed, String.toList_ofList]
    exact List.takeWhile_append_dropWhile.symm
  have hnewline' : '\n' ∉ (String.ofList (Text.trimEnd l.toList)).toList :=
    fun hmem => hnewline (hl ▸ List.mem_append_left blanks hmem)
  exact ofSource_of_blanks_append hstart hnewline' (fun c hc => List.mem_takeWhile_imp hc) hleft

end Program

end LineBasic
