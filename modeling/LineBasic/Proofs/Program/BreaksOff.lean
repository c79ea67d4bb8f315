import LineBasic.Proofs.Program.Trimmed
import LineBasic.Proofs.Statement.ByItself

/-!
# Lines that break off

A line breaks off if it ends within a string or before its statement is complete: reading it by
itself finds a string without a closing quote, or fails at the very end (`Program.BreaksOff`). Only
such a line can take up the line below it. Where no line of a text breaks off and every line begins
with a number, each line of a program makes a program by itself
(`Program.exists_ofSource_of_joinLines`).
-/

namespace LineBasic

/-- The first illegal token of a text stays where it is if more lines follow, unless it is a string
without a closing quote. -/
theorem Scanner.mem_tokens_followedBy {s : Scanner} {t : Token} (b : List Char)
    (h : s.tokens.find? (·.kind = .illegal) = some t) (ht : ¬ t.IsUnterminated) :
    t ∈ (s.followedBy ('\n' :: b)).tokens := by
  by_cases hend : s.next.1.kind = .endOfInput
  · rw [tokens_of_end rfl hend] at h
    simp [hend] at h
  · rw [tokens_of_ne_end hend] at h
    by_cases hillegal : s.next.1.kind = .illegal
    · rw [List.find?_cons_of_pos (by simpa using hillegal)] at h
      obtain rfl := Option.some.inj h
      have hnext := next_followedBy_newline b hend ht
      rw [tokens_of_ne_end (by rw [hnext]; exact hend), hnext]
      exact List.mem_cons_self
    · rw [List.find?_cons_of_neg (by simpa using hillegal)] at h
      have hnext := next_followedBy_newline b hend fun hunterminated => hillegal hunterminated.1
      rw [tokens_of_ne_end (by rw [hnext]; exact hend), hnext]
      exact List.mem_cons_of_mem _ (mem_tokens_followedBy b h ht)
termination_by s.rest.length
decreasing_by exact length_next_lt (by simpa [Token.isEnd] using hend)

namespace Program

/-- A text ends within a string, or before its statement is complete. -/
def BreaksOff (text : String) : Prop :=
  ∃ e, ofSource text = .error e ∧
    (e.code = .unterminatedString ∨ e.position = some (.behind text.toList))

variable {lines : List String} {l : String} {p q : Program}

theorem not_isUnterminated_of_find? {t : Token} (hl : ¬ BreaksOff l)
    (h : (Token.scan l).find? (·.kind = .illegal) = some t) : ¬ t.IsUnterminated := by
  intro hunterminated
  apply hl
  refine ⟨t.illegalError, ?_, .inl ?_⟩
  · rw [ofSource, ofTokens, h]
  · rw [Token.illegalError, if_pos hunterminated.2]
    rfl

/-- An illegal token in a line is one of the whole text. -/
theorem legal_of_joinLines (hlines : ∀ l ∈ lines, ¬ BreaksOff l)
    (h : ∀ t ∈ Token.scan (Text.joinLines lines), t.kind ≠ .illegal) :
    ∀ l ∈ lines, ∀ t ∈ Token.scan l, t.kind ≠ .illegal := by
  induction lines with
  | nil => exact fun l hl => nomatch hl
  | cons l ls ih =>
    obtain ⟨hl, hls⟩ := List.forall_mem_cons.mp hlines
    cases ls with
    | nil =>
      rw [Text.joinLines_singleton] at h
      exact List.forall_mem_singleton.mpr h
    | cons l' ls =>
      have hjoin := Token.toList_joinLines_cons l l' ls
      have hlegal : ∀ t ∈ Token.scan l, t.kind ≠ .illegal := by
        intro t ht hillegal
        have hsome : ((Token.scan l).find? (·.kind = .illegal)).isSome = true :=
          List.find?_isSome.mpr ⟨t, ht, by simpa using hillegal⟩
        obtain ⟨u, hu⟩ := Option.isSome_iff_exists.mp hsome
        have hmem := Scanner.mem_tokens_followedBy (Text.joinLines (l' :: ls)).toList hu
          (not_isUnterminated_of_find? hl hu)
        have hfollowed : (Scanner.ofString l).followedBy
            ('\n' :: (Text.joinLines (l' :: ls)).toList) =
            Scanner.ofString (Text.joinLines (l :: l' :: ls)) := by
          simp [Scanner.ofString, Scanner.followedBy, hjoin]
        rw [hfollowed] at hmem
        exact h u hmem (by simpa using List.find?_some hu)
      refine List.forall_mem_cons.mpr ⟨hlegal, ih hls fun t ht hillegal => ?_⟩
      rw [Token.scan_of_toList hjoin fun t ht hunterminated => hlegal t ht hunterminated.1] at h
      exact h (t.move (.down _)) (List.mem_append_right _ (List.mem_map_of_mem ht)) hillegal

theorem readLines_of_error {c : Cursor} {n : Nat} {e : Error} (ht : c.peek.IsTarget n)
    (he : (Statement.read c.peek.line n c.advance).result = .error e) :
    readLines p c = .error e := by
  rw [readLines, read_of_isTarget ht]
  simp only [Reading.behindNext, readLineThen, ht.toLineNumber, Reading.andThen, he]

/-- The first token of a line is a number. -/
def BeginsWithNumber (l : String) : Prop :=
  ∃ t ts, Token.body l = t :: ts ∧ (t.kind = .number ∨ t.kind = .lineNumber)

theorem BeginsWithNumber.head (h : BeginsWithNumber l) (hnewline : '\n' ∉ l.toList) :
    ∀ t ∈ (Token.body l).head?, (t.kind = .number ∨ t.kind = .lineNumber) ∧ t.line = 1 := by
  intro t ht
  have hline := Token.line_of_mem_body hnewline (List.mem_of_mem_head? ht)
  obtain ⟨u, us, hbody, hkind⟩ := h
  rw [hbody] at ht
  obtain rfl : u = t := Option.some.inj ht
  exact ⟨hkind, hline⟩

/-- The first of some lines makes a program by itself and leaves the other lines to be read. -/
theorem exists_of_readLines_cons {d : Cursor} {ls : List String} {k : Nat}
    (hd : d.peek.kind = .endOfInput) (hnewline : ∀ m ∈ l :: ls, '\n' ∉ m.toList)
    (hnumber : ∀ m ∈ l :: ls, BeginsWithNumber m) (hlegal : ∀ t ∈ Token.scan l, t.kind ≠ .illegal)
    (hl : ¬ BreaksOff l) (h : readLines p (atLines d k (l :: ls)) = .ok q) :
    (∃ r, ofSource l = .ok r) ∧ ∃ p', readLines p' (atLines d (k + 1) ls) = .ok q := by
  obtain ⟨hline, hlines⟩ := List.forall_mem_cons.mp hnewline
  obtain ⟨⟨t, ts, hbody, hkind⟩, hnumbers⟩ := List.forall_mem_cons.mp hnumber
  obtain ⟨hscan, hend⟩ := Token.exists_scan_eq l
  have hone : ∀ u ∈ Token.body l, u.line = 1 := fun u hu => Token.line_of_mem_body hline hu
  have htail : ∀ u ∈ (Token.body l).tail, u.kind ≠ .lineNumber :=
    fun u hu => Token.kind_ne_lineNumber_of_mem_tail hline hu
  rw [hbody] at hend hone htail
  obtain ⟨ht, hts⟩ := List.forall_mem_cons.mp hend
  obtain ⟨htone, htsone⟩ := List.forall_mem_cons.mp hone
  obtain ⟨stop, hcursor, hstop, hposition⟩ := cursor_ofTokens (Token.body l) (.behind l.toList)
  have hsource : ofSource l = readLines .empty (stop.prepend (t :: ts)) := by
    rw [ofSource, ofTokens_of_not_illegal hlegal, hscan, hcursor, hbody]
  let x : LineInText :=
    { line := 1, down := k, stop, next := atLines d (k + 1) ls, stop_kind := hstop
      next_ends := ends_atLines hd (fun m hm => (hnumbers m hm).head (hlines m hm)) (by omega) }
  have hbeside : x.Beside (stop.prepend ts) (x.next.prepend (ts.map (Token.move (.down k)))) :=
    ⟨ts, fun u hu => ⟨htail u hu, hts u hu, htsone u hu⟩, rfl, rfl⟩
  rw [atLines_cons, hbody, List.map_cons] at h
  obtain ⟨n, st, d', htarget, hread, hd'⟩ :=
    exists_gives_of_readLines (c := x.next.prepend (t.move (.down k) :: _)) ht h
  rw [readLines_of_gives htarget hread hd'] at h
  have hadvance : (x.next.prepend (t.move (.down k) :: ts.map (Token.move (.down k)))).advance =
      x.next.prepend (ts.map (Token.move (.down k))) :=
    Cursor.advance_prepend_cons _ ht
  have hadvance' : (stop.prepend (t :: ts)).advance = stop.prepend ts :=
    Cursor.advance_prepend_cons ts ht
  have hline' : (x.next.prepend (t.move (.down k) :: ts.map (Token.move (.down k)))).peek.line =
      x.line + x.down := by
    rw [Cursor.peek_prepend_cons, line_down, htone]
  rw [hadvance, hline'] at hread
  rw [hline'] at hd'
  have ht' : (stop.prepend (t :: ts)).peek.IsTarget n := htarget
  rcases LineInText.read_agrees hbeside hread with ⟨e, he, hat⟩ | ⟨c', hgives, hbeside'⟩
  · refine absurd ⟨e, ?_, .inr (hat.trans (congrArg some hposition))⟩ hl
    rw [hsource]
    apply readLines_of_error ht'
    rw [hadvance', Cursor.peek_prepend_cons, htone]
    exact he
  · obtain ⟨hc', hnext⟩ := hbeside'.eq_of_atEndOfStatement hd'
    rw [hc'] at hgives
    rw [hnext] at h
    constructor
    · have hinsert := insert_empty st ht'.isLineNumber
      have hstatement :
          (Statement.read (stop.prepend (t :: ts)).peek.line n
          (stop.prepend (t :: ts)).advance).Gives st stop := by
        rw [hadvance', Cursor.peek_prepend_cons, htone]
        exact hgives
      have hover : stop.atEndOfStatement (stop.prepend (t :: ts)).peek.line = true :=
        Cursor.Ends.atEndOfStatement (.inl hstop)
      refine ⟨single n st, ?_⟩
      rw [hsource, readLines_of_gives ht' hstatement hover, hinsert]
      exact readLines_of_end hstop
    · split at h
      · cases h
      · exact ⟨_, h⟩

/-- Where no line of a text breaks off and every line begins with a number, each line of a program
makes a program by itself. -/
theorem exists_ofSource_of_joinLines (hnewline : ∀ l ∈ lines, '\n' ∉ l.toList)
    (hnumber : ∀ l ∈ lines, BeginsWithNumber l) (hlines : ∀ l ∈ lines, ¬ BreaksOff l)
    (h : ofSource (Text.joinLines lines) = .ok q) : ∀ l ∈ lines, ∃ p, ofSource l = .ok p := by
  have hlegal := legal_of_joinLines hlines (not_illegal_of_ofSource h)
  obtain ⟨d, hd, hsource⟩ := ofSource_joinLines_eq_readLines hnewline hlegal
  rw [hsource] at h
  clear hsource
  generalize (.empty : Program) = p at h
  generalize 0 = k at h
  induction lines generalizing p k with
  | nil => exact fun l hl => nomatch hl
  | cons l ls ih =>
    obtain ⟨hl, hls⟩ := List.forall_mem_cons.mp hlines
    obtain ⟨hlegal, hlegals⟩ := List.forall_mem_cons.mp hlegal
    obtain ⟨hfirst, p', hrest⟩ := exists_of_readLines_cons hd hnewline hnumber hlegal hl h
    exact List.forall_mem_cons.mpr ⟨hfirst, ih (List.forall_mem_cons.mp hnewline).2
      (List.forall_mem_cons.mp hnumber).2 hls hlegals p' (k + 1) hrest⟩

end Program

end LineBasic
